import ChainIndex.Json.Printer
import ChainIndex.Json.Reader
import ChainIndex.Proofs.Decimal
import ChainIndex.Proofs.Text.Utf8

/-!
Printed texts and integers are read back from their octets, whatever follows the quote of a text, and
whatever follows an integer that it could not go on with.
-/
namespace ChainIndex

/-- Items that are read one by one as what they were written from. -/
theorem mapM_map_some {α β : Type} {f : α → β} {read : β → Option α} {xs : List α}
    (h : ∀ x ∈ xs, read (f x) = some x) : (xs.map f).mapM read = some xs := by
  induction xs with
  | nil => rfl
  | cons x rest ih =>
    obtain ⟨hx, hrest⟩ := List.forall_mem_cons.1 h
    rw [List.map_cons, List.mapM_cons, hx, ih hrest]
    rfl

def Utf8.ofChars (cs : List Char) : Bytes := cs.flatMap String.utf8EncodeChar

theorem Utf8.ofChars_append (cs ds : List Char) : ofChars (cs ++ ds) = ofChars cs ++ ofChars ds :=
  List.flatMap_append

theorem Utf8.ofChars_singleton (c : Char) : ofChars [c] = String.utf8EncodeChar c := List.flatMap_singleton ..

theorem Utf8.decode?_ofChars (cs : List Char) : decode? (ofChars cs) = some (String.ofList cs) := by
  have hall : (cs.map some).mapM id = some cs := mapM_map_some fun _ _ => rfl
  rw [decode?, ofChars, pieces_flatMap_encodeChar, hall]
  rfl

/-- The octets of a character beyond ASCII are beyond it. -/
theorem Utf8.octet_of_mem_encodeChar {c : Char} {b : UInt8} (h : b ∈ String.utf8EncodeChar c) :
    b.toNat = c.toNat ∨ 0x80 ≤ b.toNat := by
  have octet {n : Nat} (hn : n < 256) : (UInt8.ofNat n).toNat = n := UInt8.toNat_ofNat_of_lt' hn
  have hval : c.val.toNat = c.toNat := rfl
  have hvalid : c.toNat < 0xD800 ∨ 0xDFFF < c.toNat ∧ c.toNat < 0x110000 := c.valid
  rw [String.utf8EncodeChar, hval] at h
  split at h
  · rw [List.mem_singleton] at h
    exact .inl (h ▸ octet (by omega))
  · refine .inr ?_
    have beyond {n : Nat} (hlow : 0x80 ≤ n) (hhigh : n < 256) : 0x80 ≤ (UInt8.ofNat n).toNat := by
      rw [octet hhigh]
      exact hlow
    split at h
    · simp only [List.mem_cons, List.not_mem_nil, or_false] at h
      rcases h with rfl | rfl <;> exact beyond (by omega) (by omega)
    · split at h
      · simp only [List.mem_cons, List.not_mem_nil, or_false] at h
        rcases h with rfl | rfl | rfl <;> exact beyond (by omega) (by omega)
      · simp only [List.mem_cons, List.not_mem_nil, or_false] at h
        rcases h with rfl | rfl | rfl | rfl <;> exact beyond (by omega) (by omega)

namespace Json

open Utf8 (ofChars ofChars_append ofChars_singleton)

/-! ## Strings -/

section Strings

variable {b e : UInt8} {n : Nat} {taken : List Piece} {rest : Bytes}

theorem scanPieces_octet (hlow : 0x20 ≤ b.toNat) (hquote : b ≠ 0x22) (hback : b ≠ 0x5C) :
    scanPieces taken (b :: rest) = scanPieces (.octet b :: taken) rest := by
  have hnot : ¬(b < 0x20 ∨ b = 0x5C) := by
    rintro (h | h)
    · exact absurd (UInt8.lt_iff_toNat_lt.1 h) (Nat.not_lt.2 hlow)
    · exact hback h
  rw [scanPieces.eq_def]
  split
  · next h => exact absurd (List.cons.inj h).1 hquote
  · next h => exact absurd (List.cons.inj h).1 hback
  · next h => exact absurd (List.cons.inj h).1 hback
  · next h =>
    obtain ⟨rfl, rfl⟩ := List.cons.inj h
    rw [if_neg hnot]
  · next h => cases h

theorem scanPieces_escaped (he : e ≠ 0x75) (h : escaped? e = some b) :
    scanPieces taken (0x5C :: e :: rest) = scanPieces (.octet b :: taken) rest := by
  rw [scanPieces.eq_def]
  split
  · next h => cases h
  · next h => exact absurd (List.cons.inj (List.cons.inj h).2).1 he
  · next h' =>
    obtain ⟨rfl, rfl⟩ := List.cons.inj (List.cons.inj h').2
    rw [h]
  · next hnot h' =>
    obtain ⟨rfl, rfl⟩ := List.cons.inj h'
    exact absurd rfl (hnot e rest rfl)
  · next h => cases h

theorem scanPieces_unit {a b c d : UInt8} (h : unit? a b c d = some n) :
    scanPieces taken (0x5C :: 0x75 :: a :: b :: c :: d :: rest) = scanPieces (.unit n :: taken) rest := by
  rw [scanPieces, h]

theorem joinPieces_unit (hn : n < 0xD800) (after : List Piece) :
    joinPieces (.unit n :: after) = wideOctets n ++ joinPieces after := by
  have hhigh : isHighSurrogate n = false := by
    rw [isHighSurrogate, decide_eq_false (Nat.not_le.2 hn), Bool.false_and]
  cases after with
  | nil => rfl
  | cons piece after =>
    cases piece with
    | octet b => rfl
    | unit low => rw [joinPieces, hhigh, Bool.false_and, if_neg Bool.false_ne_true]

theorem joinPieces_octets (octets : Bytes) (after : List Piece) :
    joinPieces (octets.map .octet ++ after) = octets ++ joinPieces after := by
  induction octets with
  | nil => rfl
  | cons b rest ih => rw [List.map_cons, List.cons_append, joinPieces, ih, List.cons_append]

/-- Octets inside a string token that are scanned as the text `cs`, whatever stands around them. -/
def Scanned (input : Bytes) (cs : List Char) : Prop :=
  ∃ pieces : List Piece,
    (∀ taken rest, scanPieces taken (input ++ rest) = scanPieces (pieces.reverse ++ taken) rest) ∧
      ∀ after, joinPieces (pieces ++ after) = ofChars cs ++ joinPieces after

theorem scanned_nil : Scanned [] [] := ⟨[], fun _ _ => rfl, fun _ => rfl⟩

theorem Scanned.append {a b : Bytes} {cs ds : List Char} (ha : Scanned a cs) (hb : Scanned b ds) :
    Scanned (a ++ b) (cs ++ ds) := by
  obtain ⟨front, hfront, hfront'⟩ := ha
  obtain ⟨back, hback, hback'⟩ := hb
  refine ⟨front ++ back, fun taken rest => ?_, fun after => ?_⟩
  · rw [List.append_assoc, hfront, hback, List.reverse_append, List.append_assoc]
  · rw [List.append_assoc, hfront', hback', ofChars_append, List.append_assoc]

/-- Octets beyond the controls, the quote and the backslash stand for themselves. -/
theorem scanned_octets {c : Char}
    (h : ∀ b ∈ String.utf8EncodeChar c, 0x20 ≤ b.toNat ∧ b ≠ 0x22 ∧ b ≠ 0x5C) :
    Scanned (String.utf8EncodeChar c) [c] := by
  refine ⟨(String.utf8EncodeChar c).map .octet, fun taken rest => ?_, fun after => ?_⟩
  · generalize String.utf8EncodeChar c = input at h
    induction input generalizing taken with
    | nil => rfl
    | cons b input ih =>
      obtain ⟨⟨hlow, hquote, hback⟩, hinput⟩ := List.forall_mem_cons.1 h
      rw [List.cons_append, scanPieces_octet hlow hquote hback, ih (.octet b :: taken) hinput, List.map_cons,
        List.reverse_cons, List.append_assoc]
      rfl
  · rw [joinPieces_octets, ofChars_singleton]

/-- How a character is printed: as one letter behind a backslash, by its number, or as it stands. -/
theorem escape_cases (c : Char) :
    (∃ e b : UInt8, ofChars (escape c) = [0x5C, e] ∧ e ≠ 0x75 ∧ escaped? e = some b ∧ String.utf8EncodeChar c = [b]) ∨
    (∃ high low : UInt8, ofChars (escape c) = [0x5C, 0x75, 0x30, 0x30, high, low] ∧
      unit? 0x30 0x30 high low = some c.toNat ∧ c.toNat < 0x20) ∨
    (ofChars (escape c) = String.utf8EncodeChar c ∧ 0x20 ≤ c.toNat ∧ c.toNat ≠ 0x22 ∧ c.toNat ≠ 0x5C) := by
  have hdigits : ∀ n < 0x20, ofChars [hexDigit (n / 16), hexDigit (n % 16)] =
      [(hexDigit (n / 16)).toNat.toUInt8, (hexDigit (n % 16)).toNat.toUInt8] ∧
      unit? 0x30 0x30 (hexDigit (n / 16)).toNat.toUInt8 (hexDigit (n % 16)).toNat.toUInt8 = some n := by
    decide
  have hc : c = Char.ofNat c.toNat := c.ofNat_toNat.symm
  unfold escape
  split
  · next h =>
    rw [h]
    exact .inl ⟨0x22, 0x22, by decide⟩
  split
  · next h =>
    rw [h]
    exact .inl ⟨0x5C, 0x5C, by decide⟩
  split
  · next hquote hback h =>
    refine .inr (.inr ⟨ofChars_singleton c, h, fun h => hquote ?_, fun h => hback ?_⟩)
    · rw [hc, h]
    · rw [hc, h]
  have hsmall : c.toNat < 0x20 := Nat.not_le.1 ‹_›
  have hletter {n : Nat} {letter : Char} (h : c.toNat = n) (e b : UInt8)
      (hspec : ofChars ['\\', letter] = [0x5C, e] ∧ e ≠ 0x75 ∧ escaped? e = some b ∧
        String.utf8EncodeChar (Char.ofNat n) = [b]) :
      ∃ e b : UInt8, ofChars ['\\', letter] = [0x5C, e] ∧ e ≠ 0x75 ∧ escaped? e = some b ∧
        String.utf8EncodeChar c = [b] := by
    rw [hc, h]
    exact ⟨e, b, hspec⟩
  split
  · next h => exact .inl (hletter h 0x62 0x08 (by decide))
  · next h => exact .inl (hletter h 0x74 0x09 (by decide))
  · next h => exact .inl (hletter h 0x6E 0x0A (by decide))
  · next h => exact .inl (hletter h 0x66 0x0C (by decide))
  · next h => exact .inl (hletter h 0x72 0x0D (by decide))
  · obtain ⟨htext, hunit⟩ := hdigits c.toNat hsmall
    refine .inr (.inl ⟨_, _, ?_, hunit, hsmall⟩)
    exact congrArg ([0x5C, 0x75, 0x30, 0x30] ++ ·) htext

theorem scanned_escape (c : Char) : Scanned (ofChars (escape c)) [c] := by
  rcases escape_cases c with ⟨e, b, hinput, he, hescaped, hchar⟩ | ⟨high, low, hinput, hunit, hsmall⟩ |
      ⟨hinput, hlow, hquote, hback⟩
  · rw [hinput]
    refine ⟨[.octet b], fun taken rest => scanPieces_escaped he hescaped, fun after => ?_⟩
    rw [List.singleton_append, joinPieces, ofChars_singleton, hchar, List.singleton_append]
  · rw [hinput]
    refine ⟨[.unit c.toNat], fun taken rest => scanPieces_unit hunit, fun after => ?_⟩
    have hoctet : String.utf8EncodeChar c = wideOctets c.toNat := by
      have hall : ∀ n < 0x20, String.utf8EncodeChar (Char.ofNat n) = wideOctets n := by decide
      rw [← hall _ hsmall, Char.ofNat_toNat]
    rw [List.singleton_append, joinPieces_unit (by omega), ofChars_singleton, hoctet]
  · rw [hinput]
    refine scanned_octets fun b hb => ?_
    have hne {n : Nat} (hn : n < 0x80) (hcn : c.toNat ≠ n) : b.toNat ≠ n := by
      rcases Utf8.octet_of_mem_encodeChar hb with h | h <;> omega
    refine ⟨?_, fun h => hne (by decide) hquote (congrArg UInt8.toNat h),
      fun h => hne (by decide) hback (congrArg UInt8.toNat h)⟩
    rcases Utf8.octet_of_mem_encodeChar hb with h | h <;> omega

theorem scanned_escapes (cs : List Char) : Scanned (ofChars (cs.flatMap escape)) cs := by
  induction cs with
  | nil => exact scanned_nil
  | cons c rest ih =>
    rw [List.flatMap_cons, ofChars_append]
    exact (scanned_escape c).append ih

/-- A printed text is scanned as itself. -/
theorem scanText_printText (text : String) :
    ∃ inside : Bytes, ofChars (printText text) = 0x22 :: inside ∧
      ∀ rest, scanText (inside ++ rest) = some (some text, rest) := by
  obtain ⟨pieces, hscan, hjoin⟩ := scanned_escapes text.toList
  refine ⟨ofChars (text.toList.flatMap escape) ++ [0x22], ?_, fun rest => ?_⟩
  · exact congrArg (0x22 :: ·) (ofChars_append _ _)
  · have hpieces := hjoin []
    rw [List.append_nil, joinPieces, List.append_nil] at hpieces
    rw [scanText, List.append_assoc, hscan, List.singleton_append, scanPieces, List.append_nil,
      List.reverse_reverse, Option.map_some]
    simp only [hpieces, Utf8.decode?_ofChars, String.ofList_toList]

end Strings

/-! ## Numbers -/

section Numbers

variable {n : Nat} {negative : Bool} {b : UInt8} {rest : Bytes}

def Ends (rest : Bytes) : Prop := ∀ b ∈ rest.head?, isDigit b = false ∧ b ≠ 0x2E ∧ b ≠ 0x65 ∧ b ≠ 0x45

/-- A digit is a single octet of the same value. -/
theorem digit_octet {c : Char} (hc : c.isDigit = true) :
    String.utf8EncodeChar c = [c.toNat.toUInt8] ∧ isDigit c.toNat.toUInt8 = true ∧
      c.toNat.toUInt8.toNat - 0x30 = c.toNat - 48 ∧ (c.toNat.toUInt8 = 0x30 → c = '0') := by
  have hall : ∀ n < 58, 48 ≤ n → String.utf8EncodeChar (Char.ofNat n) = [n.toUInt8] ∧ isDigit n.toUInt8 = true ∧
      n.toUInt8.toNat - 0x30 = n - 48 ∧ (n.toUInt8 = 0x30 → Char.ofNat n = '0') := by decide
  have hrange : 48 ≤ c.toNat ∧ c.toNat < 58 := by
    simp only [Char.isDigit, Bool.and_eq_true, decide_eq_true_eq] at hc
    exact ⟨UInt32.le_iff_toNat_le.1 hc.1, Nat.lt_succ_of_le (UInt32.le_iff_toNat_le.1 hc.2)⟩
  have h := hall c.toNat hrange.2 hrange.1
  rwa [Char.ofNat_toNat] at h

theorem ofChars_digits {cs : List Char} (h : ∀ c ∈ cs, c.isDigit = true) :
    (∀ b ∈ ofChars cs, isDigit b = true) ∧ (ofChars cs).length = cs.length ∧
      digitsOf (ofChars cs) = cs.map fun c => c.toNat - 48 := by
  induction cs with
  | nil => exact ⟨fun b hb => absurd hb List.not_mem_nil, rfl, rfl⟩
  | cons c cs ih =>
    obtain ⟨hc, hcs⟩ := List.forall_mem_cons.1 h
    obtain ⟨hoctet, hdigit, hvalue, -⟩ := digit_octet hc
    obtain ⟨hall, hlength, hdigits⟩ := ih hcs
    have hcons : ofChars (c :: cs) = c.toNat.toUInt8 :: ofChars cs := by
      rw [ofChars, List.flatMap_cons, hoctet]
      rfl
    rw [hcons]
    refine ⟨List.forall_mem_cons.2 ⟨hdigit, hall⟩, congrArg Nat.succ hlength, ?_⟩
    rw [digitsOf, List.map_cons, hvalue, List.map_cons]
    exact congrArg _ hdigits

/-- No number of several digits begins with a zero. -/
theorem toDigits_cases (n : Nat) :
    (∃ c, Nat.toDigits 10 n = [c]) ∨ ∃ c d cs, Nat.toDigits 10 n = c :: d :: cs ∧ c ≠ '0' := by
  induction n using Nat.strongRecOn with
  | ind n ih =>
    by_cases hn : n < 10
    · exact .inl ⟨_, Nat.toDigits_of_lt_base hn⟩
    · rw [Nat.toDigits_of_base_le (by decide) (Nat.not_lt.1 hn)]
      refine .inr ?_
      rcases ih (n / 10) (by omega) with ⟨c, h⟩ | ⟨c, d, cs, h, hc⟩
      · refine ⟨c, (n % 10).digitChar, [], by rw [h]; rfl, ?_⟩
        rintro rfl
        have hzero := Decimal.foldl_toDigits (n / 10)
        rw [h] at hzero
        have : n / 10 = 0 := hzero.symm
        omega
      · exact ⟨c, d, cs ++ [(n % 10).digitChar], by rw [h]; rfl, hc⟩

/-- The digits of a number end where the number does. -/
theorem takeWhile_digits {digits : Bytes} (hall : ∀ b ∈ digits, isDigit b = true) (hrest : Ends rest) :
    (digits ++ rest).takeWhile isDigit = digits ∧ (digits ++ rest).dropWhile isDigit = rest := by
  rw [List.takeWhile_append_of_pos hall, List.dropWhile_append_of_pos hall]
  cases rest with
  | nil => exact ⟨List.append_nil _, rfl⟩
  | cons b rest =>
    have hb : ¬isDigit b = true := Bool.eq_false_iff.1 (hrest b rfl).1
    rw [List.takeWhile_cons_of_neg hb, List.dropWhile_cons_of_neg hb, List.append_nil]
    exact ⟨rfl, rfl⟩

theorem scanFraction_ends (hrest : Ends rest) : scanFraction rest = some ([], rest) := by
  rw [scanFraction.eq_def]
  split
  · exact absurd rfl (hrest _ rfl).2.1
  · rfl

theorem scanExponent_ends (hrest : Ends rest) : scanExponent rest = some (none, rest) := by
  rw [scanExponent.eq_def]
  dsimp only
  split
  · exact absurd rfl (hrest _ rfl).2.2.1
  · exact absurd rfl (hrest _ rfl).2.2.2
  · rfl

theorem isDigit_of_mem_toDigits {c : Char} (hc : c ∈ Nat.toDigits 10 n) : c.isDigit = true :=
  Nat.isDigit_of_mem_toDigits (by decide) (by decide) hc

theorem whole_toDigits (n : Nat) :
    (∃ b, ofChars (Nat.toDigits 10 n) = [b]) ∨
      ∃ a b more, ofChars (Nat.toDigits 10 n) = a :: b :: more ∧ a ≠ 0x30 := by
  rcases toDigits_cases n with ⟨c, h⟩ | ⟨c, d, cs, h, hc⟩
  · refine .inl ⟨c.toNat.toUInt8, ?_⟩
    rw [h, ofChars_singleton, (digit_octet (isDigit_of_mem_toDigits (h ▸ List.mem_singleton_self c))).1]
  · obtain ⟨hfirst, -, -, hzero⟩ := digit_octet (isDigit_of_mem_toDigits (h ▸ List.mem_cons_self))
    obtain ⟨hsecond, -⟩ := digit_octet (isDigit_of_mem_toDigits (h ▸ List.mem_cons_of_mem c List.mem_cons_self))
    refine .inr ⟨c.toNat.toUInt8, d.toNat.toUInt8, ofChars cs, ?_, fun h => hc (hzero h)⟩
    rw [h, ofChars, List.flatMap_cons, List.flatMap_cons, hfirst, hsecond]
    rfl

/-- A printed integer is scanned as itself, up to where it ends. -/
theorem scanNumber_toDigits (hn : (Nat.toDigits 10 n).length ≤ doubleDigits) (hsign : negative = true → n ≠ 0)
    (hrest : Ends rest) :
    scanNumber negative (ofChars (Nat.toDigits 10 n) ++ rest) =
      some (.int (if negative then -(n : Int) else n), rest) := by
  obtain ⟨hall, hlength, hvalues⟩ := ofChars_digits fun c => isDigit_of_mem_toDigits (n := n)
  obtain ⟨htake, hdrop⟩ := takeWhile_digits hall hrest
  have hnumber : numberOf (digitsOf (ofChars (Nat.toDigits 10 n))) = n := by
    rw [hvalues, numberOf, List.foldl_map, Decimal.foldl_toDigits]
  have hnumeral : numeral negative (digitsOf (ofChars (Nat.toDigits 10 n))) [] none =
      .int (if negative then -(n : Int) else n) := by
    have hplain : ¬(negative = true ∧ n = 0) := fun h => hsign h.1 h.2
    have hshort : (digitsOf (ofChars (Nat.toDigits 10 n))).length ≤ doubleDigits := by
      rwa [digitsOf, List.length_map, hlength]
    rw [numeral, hnumber, if_neg hplain, if_pos (.inl hshort)]
  rw [scanNumber, htake, hdrop, scanFraction_ends hrest]
  rcases whole_toDigits n with ⟨b, h⟩ | ⟨a, b, more, h, ha⟩
  · rw [h] at hnumeral
    simp only [h, Option.bind_eq_bind, Option.bind_some, scanExponent_ends hrest, hnumeral]
    rfl
  · rw [h] at hnumeral
    simp only [h, if_neg ha, Option.bind_eq_bind, Option.bind_some, scanExponent_ends hrest, hnumeral]
    rfl

end Numbers

end Json
end ChainIndex
