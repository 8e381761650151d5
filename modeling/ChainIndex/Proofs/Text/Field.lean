import ChainIndex.Text.Field
import Mathlib.Data.List.Infix

/-!
Texts cut to the room of a field. A character takes at most four octets, so the search for its boundary is short; and
boundaries are the ends of beginnings, so what is kept is the longest beginning of whole characters that fits.
-/
namespace ChainIndex
namespace Text

variable {text front : String} {room n : Nat}

section Search

theorem offset_lastBoundary_le (text : String) (n : Nat) : (lastBoundary text n).offset.byteIdx ≤ n := by
  induction n with
  | zero => exact Nat.le_refl 0
  | succ n ih =>
    unfold lastBoundary
    split
    · exact Nat.le_refl _
    · exact Nat.le_succ_of_le ih

/-- No boundary that is not behind the offset is missed. -/
theorem le_offset_lastBoundary (p : text.Pos) (h : p.offset.byteIdx ≤ n) :
    p.offset.byteIdx ≤ (lastBoundary text n).offset.byteIdx := by
  induction n with
  | zero => exact h
  | succ n ih =>
    unfold lastBoundary
    split
    · exact h
    · next hnot =>
      have hne : p.offset.byteIdx ≠ n + 1 := fun he => hnot (String.Pos.Raw.ext (y := ⟨n + 1⟩) he ▸ p.isValid)
      exact ih (by omega)

/-- The character behind the last boundary goes beyond the offset. -/
theorem le_offset_lastBoundary_add_three (h : n ≤ text.utf8ByteSize) :
    n ≤ (lastBoundary text n).offset.byteIdx + 3 := by
  by_cases hend : lastBoundary text n = text.endPos
  · rw [hend, String.offset_endPos, String.byteIdx_rawEndPos]
    omega
  · have hnext := String.Pos.byteIdx_offset_next (lastBoundary text n) hend
    have hpos := Char.utf8Size_pos ((lastBoundary text n).get hend)
    have hfour := Char.utf8Size_le_four ((lastBoundary text n).get hend)
    have hbeyond : n < ((lastBoundary text n).next hend).offset.byteIdx := Nat.lt_of_not_le fun hle => by
      have hmissed := le_offset_lastBoundary ((lastBoundary text n).next hend) hle
      omega
    omega

end Search

section Cut

theorem cut_of_le (h : text.utf8ByteSize ≤ room) : cut room text = text := if_pos h

/-- The last boundary parts the text into what is kept and a rest. -/
theorem splits_cut (h : room < text.utf8ByteSize) :
    ∃ rest, (lastBoundary text room).Splits (cut room text) rest := by
  rw [cut, if_neg (Nat.not_le.2 h)]
  exact ⟨_, (lastBoundary text room).splits⟩

theorem utf8ByteSize_cut (h : room < text.utf8ByteSize) :
    (cut room text).utf8ByteSize = (lastBoundary text room).offset.byteIdx := by
  obtain ⟨rest, hsplits⟩ := splits_cut h
  rw [hsplits.offset_eq_rawEndPos, String.byteIdx_rawEndPos]

theorem utf8ByteSize_cut_le (room : Nat) (text : String) : (cut room text).utf8ByteSize ≤ room := by
  by_cases h : text.utf8ByteSize ≤ room
  · rwa [cut_of_le h]
  · rw [utf8ByteSize_cut (Nat.not_le.1 h)]
    exact offset_lastBoundary_le text room

theorem cut_prefix_self (room : Nat) (text : String) : (cut room text).toList <+: text.toList := by
  by_cases h : text.utf8ByteSize ≤ room
  · rw [cut_of_le h]
  · obtain ⟨rest, hsplits⟩ := splits_cut (Nat.not_le.1 h)
    have hlist := congrArg String.toList hsplits.eq_append
    rw [String.toList_append] at hlist
    exact ⟨rest.toList, hlist.symm⟩

/-- Every beginning that fits is kept. -/
theorem prefix_cut (hfront : front.toList <+: text.toList) (hfits : front.utf8ByteSize ≤ room) :
    front.toList <+: (cut room text).toList := by
  by_cases h : text.utf8ByteSize ≤ room
  · rwa [cut_of_le h]
  · have hkept := utf8ByteSize_cut (Nat.not_le.1 h)
    obtain ⟨rest, hrest⟩ := hfront
    have htext : text = front ++ String.ofList rest := by
      rw [← String.toList_inj, String.toList_append, String.toList_ofList, hrest]
    have hboundary : String.Pos.Raw.IsValid text front.rawEndPos :=
      String.Pos.Raw.isValid_iff_exists_append.2 ⟨front, _, htext, rfl⟩
    have hle : front.utf8ByteSize ≤ (cut room text).utf8ByteSize :=
      hkept ▸ le_offset_lastBoundary ⟨_, hboundary⟩ hfits
    rcases List.prefix_or_prefix_of_prefix ⟨rest, hrest⟩ (cut_prefix_self room text) with hbefore | ⟨more, hmore⟩
    · exact hbefore
    · have hlonger : front = cut room text ++ String.ofList more := by
        rw [← String.toList_inj, String.toList_append, String.toList_ofList, hmore]
      have hsize := congrArg String.utf8ByteSize hlonger
      rw [String.utf8ByteSize_append] at hsize
      have hnone : String.ofList more = "" := String.utf8ByteSize_eq_zero_iff.1 (by omega)
      rw [hlonger, hnone, String.append_empty]

end Cut

/-- What is kept of a text is the longest beginning of whole characters that fits, so it is the whole text if that fits,
and is cut no further; and the search for its end takes three steps at most. -/
theorem cut_keeps_longest_beginning (room : Nat) (text : String) :
    ((cut room text).toList <+: text.toList ∧ (cut room text).utf8ByteSize ≤ room ∧
      ∀ front : String, front.toList <+: text.toList → front.utf8ByteSize ≤ room →
        front.toList <+: (cut room text).toList) ∧
    (cut room text = text ↔ text.utf8ByteSize ≤ room) ∧
    cut room (cut room text) = cut room text ∧
    (∀ bytes : Bytes, bytes.toField.utf8ByteSize ≤ fieldLimit) ∧
    (room < text.utf8ByteSize → ∃ steps ≤ 3, steps ≤ room ∧
      (∀ i < steps, ¬String.Pos.Raw.IsValid text ⟨room - i⟩) ∧
      (lastBoundary text room).offset.byteIdx = room - steps ∧ (cut room text).utf8ByteSize = room - steps) := by
  have hfits := utf8ByteSize_cut_le room text
  refine ⟨⟨cut_prefix_self room text, hfits, fun _ => prefix_cut⟩, ⟨fun h => h ▸ hfits, cut_of_le⟩, cut_of_le hfits,
    fun bytes => utf8ByteSize_cut_le fieldLimit _, fun hlong => ?_⟩
  have hle := offset_lastBoundary_le text room
  have hnear := le_offset_lastBoundary_add_three (Nat.le_of_lt hlong)
  have hkept := utf8ByteSize_cut hlong
  refine ⟨room - (lastBoundary text room).offset.byteIdx, by omega, Nat.sub_le _ _, fun i hi hboundary => ?_,
    by omega, by omega⟩
  have hmissed : room - i ≤ (lastBoundary text room).offset.byteIdx :=
    le_offset_lastBoundary ⟨⟨room - i⟩, hboundary⟩ (Nat.sub_le room i)
  omega

/-- Four octets of room end within the second character, three steps behind its start. -/
theorem cut_keeps_longest_beginning_astral :
    (4 < "a😀".utf8ByteSize ∧ ∃ steps ≤ 3, steps ≤ 4 ∧ (∀ i < steps, ¬String.Pos.Raw.IsValid "a😀" ⟨4 - i⟩) ∧
      (lastBoundary "a😀" 4).offset.byteIdx = 4 - steps ∧ (cut 4 "a😀").utf8ByteSize = 4 - steps) ∧
    ("a".toList <+: "a😀".toList ∧ "a".utf8ByteSize ≤ 4 ∧ "a".toList <+: (cut 4 "a😀").toList) := by
  obtain ⟨⟨-, -, hkept⟩, -, -, -, hsearch⟩ := cut_keeps_longest_beginning 4 "a😀"
  have hlong : 4 < "a😀".utf8ByteSize := by decide
  have hfront : "a".toList <+: "a😀".toList := by decide
  have hfits : "a".utf8ByteSize ≤ 4 := by decide
  exact ⟨⟨hlong, hsearch hlong⟩, hfront, hfits, hkept "a" hfront hfits⟩

end Text
end ChainIndex
