import ChainIndex.Text.Utf8

/-!
Texts are read back from their octets, whatever octets follow. An at sign ends whatever stands before
it, so octets can be cut at at signs before or after they are decoded.
-/
namespace ChainIndex
namespace Utf8

variable {b low high : UInt8} {more value : Nat} {rest : Bytes}

theorem pieces_last (hmore : more ≤ 1) (hlow : low.toNat ≤ b.toNat) (hhigh : b.toNat ≤ high.toNat) :
    pieces (.inside more low high value) (b :: rest) =
      some (Char.ofNat (value * 64 + (b.toNat - 0x80))) :: pieces .boundary rest := by
  have hin : low ≤ b ∧ b ≤ high := ⟨UInt8.le_iff_toNat_le.2 hlow, UInt8.le_iff_toNat_le.2 hhigh⟩
  simp only [pieces, step, hin, and_self, ↓reduceIte, hmore, List.cons_append, List.nil_append]

theorem pieces_more (hmore : 1 < more) (hlow : low.toNat ≤ b.toNat) (hhigh : b.toNat ≤ high.toNat) :
    pieces (.inside more low high value) (b :: rest) =
      pieces (.inside (more - 1) 0x80 0xBF (value * 64 + (b.toNat - 0x80))) rest := by
  have hin : low ≤ b ∧ b ≤ high := ⟨UInt8.le_iff_toNat_le.2 hlow, UInt8.le_iff_toNat_le.2 hhigh⟩
  simp only [pieces, step, hin, and_self, ↓reduceIte, Nat.not_le.2 hmore, List.nil_append]

theorem pieces_cons (s : State) (b : UInt8) (rest : Bytes) :
    pieces s (b :: rest) = (step s b).1 ++ pieces (step s b).2 rest := rfl

theorem pieces_start {next : State} (h : start b = ([], next)) : pieces .boundary (b :: rest) = pieces next rest := by
  rw [pieces_cons, step, h]
  rfl

theorem start_ascii (h : b.toNat < 0x80) : start b = ([some (Char.ofNat b.toNat)], .boundary) := by
  simp only [start, h, ↓reduceIte]

theorem start_two (hlow : 0xC2 ≤ b.toNat) (hhigh : b.toNat < 0xE0) :
    start b = ([], .inside 1 0x80 0xBF (b.toNat - 0xC0)) := by
  have hnot : ¬b.toNat < 0x80 ∧ ¬b.toNat < 0xC2 := by omega
  simp only [start, hnot.1, hnot.2, hhigh, ↓reduceIte]

/-- After the first octet of three, the second must not make the character too short, nor half of a
surrogate pair. -/
theorem start_three (hlow : 0xE0 ≤ b.toNat) (hhigh : b.toNat < 0xF0) :
    ∃ low high : UInt8, start b = ([], .inside 2 low high (b.toNat - 0xE0)) ∧
      ∀ n, 0x80 ≤ n → n < 0xC0 → (b.toNat = 0xE0 → 0xA0 ≤ n) → (b.toNat = 0xED → n < 0xA0) →
        low.toNat ≤ n ∧ n ≤ high.toNat := by
  have hnot : ¬b.toNat < 0x80 ∧ ¬b.toNat < 0xC2 ∧ ¬b.toNat < 0xE0 := by omega
  simp only [start, hnot.1, hnot.2, hhigh, ↓reduceIte]
  split
  · next h => exact ⟨0xA0, 0xBF, by rw [h], fun n _ hn hlong _ => ⟨hlong h, Nat.le_of_lt_succ hn⟩⟩
  · split
    · next h => exact ⟨0x80, 0x9F, by rw [h], fun n hn _ _ hpair => ⟨hn, Nat.le_of_lt_succ (hpair h)⟩⟩
    · exact ⟨0x80, 0xBF, rfl, fun n hn hn' _ _ => ⟨hn, Nat.le_of_lt_succ hn'⟩⟩

/-- After the first octet of four, the second must not make the character too short, nor too great. -/
theorem start_four (hlow : 0xF0 ≤ b.toNat) (hhigh : b.toNat ≤ 0xF4) :
    ∃ low high : UInt8, start b = ([], .inside 3 low high (b.toNat - 0xF0)) ∧
      ∀ n, 0x80 ≤ n → n < 0xC0 → (b.toNat = 0xF0 → 0x90 ≤ n) → (b.toNat = 0xF4 → n < 0x90) →
        low.toNat ≤ n ∧ n ≤ high.toNat := by
  have hnot : ¬b.toNat < 0x80 ∧ ¬b.toNat < 0xC2 ∧ ¬b.toNat < 0xE0 ∧ b.toNat ≠ 0xE0 ∧ b.toNat ≠ 0xED ∧
      ¬b.toNat < 0xF0 := by omega
  simp only [start, hnot.1, hnot.2.1, hnot.2.2.1, hnot.2.2.2.1, hnot.2.2.2.2.1, hnot.2.2.2.2.2, ↓reduceIte]
  split
  · next h => exact ⟨0x90, 0xBF, by rw [h], fun n _ hn hlong _ => ⟨hlong h, Nat.le_of_lt_succ hn⟩⟩
  · split
    · exact ⟨0x80, 0xBF, rfl, fun n hn hn' _ _ => ⟨hn, Nat.le_of_lt_succ hn'⟩⟩
    · next h =>
      have hlast : b.toNat = 0xF4 := by omega
      rw [if_pos hlast]
      exact ⟨0x80, 0x8F, by rw [hlast], fun n hn _ _ hgreat => ⟨hn, Nat.le_of_lt_succ (hgreat hlast)⟩⟩

/-- Octets that go on with a character. -/
theorem within_tail (hlow : 0x80 ≤ b.toNat) (hhigh : b.toNat < 0xC0) :
    (0x80 : UInt8).toNat ≤ b.toNat ∧ b.toNat ≤ (0xBF : UInt8).toNat :=
  ⟨hlow, Nat.le_of_lt_succ hhigh⟩

section Characters

variable {a b c d : UInt8} {v : Nat} {rest : Bytes}

theorem pieces_one (ha : a.toNat = v) (hv : v < 0x80) :
    pieces .boundary (a :: rest) = some (Char.ofNat v) :: pieces .boundary rest := by
  rw [pieces, step, start_ascii (by omega), ha]
  rfl

/-- A character of two octets. -/
theorem pieces_two (ha : a.toNat = v / 64 + 0xC0) (hb : b.toNat = v % 64 + 0x80) (hv : 0x80 ≤ v)
    (hv' : v < 0x800) :
    pieces .boundary (a :: b :: rest) = some (Char.ofNat v) :: pieces .boundary rest := by
  have hlast := within_tail (b := b) (by omega) (by omega)
  have hvalue : (a.toNat - 0xC0) * 64 + (b.toNat - 0x80) = v := by omega
  rw [pieces_start (start_two (by omega) (by omega)), pieces_last (Nat.le_refl 1) hlast.1 hlast.2, hvalue]

/-- A character of three octets, and no half of a surrogate pair. -/
theorem pieces_three (ha : a.toNat = v / 4096 + 0xE0) (hb : b.toNat = v / 64 % 64 + 0x80)
    (hc : c.toNat = v % 64 + 0x80) (hv : 0x800 ≤ v) (hv' : v < 0x10000) (hpair : v < 0xD800 ∨ 0xDFFF < v) :
    pieces .boundary (a :: b :: c :: rest) = some (Char.ofNat v) :: pieces .boundary rest := by
  obtain ⟨low, high, hstart, hbetween⟩ := start_three (b := a) (by omega) (by omega)
  obtain ⟨hlow, hhigh⟩ := hbetween b.toNat (by omega) (by omega) (by omega) (by omega)
  have hlast := within_tail (b := c) (by omega) (by omega)
  have hvalue : ((a.toNat - 0xE0) * 64 + (b.toNat - 0x80)) * 64 + (c.toNat - 0x80) = v := by omega
  rw [pieces_start hstart, pieces_more (by decide) hlow hhigh,
    pieces_last (Nat.le_refl 1) hlast.1 hlast.2, hvalue]

/-- A character of four octets. -/
theorem pieces_four (ha : a.toNat = v / 262144 + 0xF0) (hb : b.toNat = v / 4096 % 64 + 0x80)
    (hc : c.toNat = v / 64 % 64 + 0x80) (hd : d.toNat = v % 64 + 0x80) (hv : 0x10000 ≤ v) (hv' : v < 0x110000) :
    pieces .boundary (a :: b :: c :: d :: rest) = some (Char.ofNat v) :: pieces .boundary rest := by
  obtain ⟨low, high, hstart, hbetween⟩ := start_four (b := a) (by omega) (by omega)
  obtain ⟨hlow, hhigh⟩ := hbetween b.toNat (by omega) (by omega) (by omega) (by omega)
  have hthird := within_tail (b := c) (by omega) (by omega)
  have hlast := within_tail (b := d) (by omega) (by omega)
  have hvalue : (((a.toNat - 0xF0) * 64 + (b.toNat - 0x80)) * 64 + (c.toNat - 0x80)) * 64 +
      (d.toNat - 0x80) = v := by omega
  rw [pieces_start hstart, pieces_more (by decide) hlow hhigh,
    pieces_more (by decide) hthird.1 hthird.2, pieces_last (Nat.le_refl 1) hlast.1 hlast.2, hvalue]

end Characters

/-- A character is read back from its octets. -/
theorem pieces_encodeChar (c : Char) (rest : Bytes) :
    pieces .boundary (String.utf8EncodeChar c ++ rest) = some c :: pieces .boundary rest := by
  have octet {n m : Nat} (hn : n < 256) (hm : n = m) : (UInt8.ofNat n).toNat = m :=
    (UInt8.toNat_ofNat_of_lt' hn).trans hm
  have hvalid : c.toNat < 0xD800 ∨ 0xDFFF < c.toNat ∧ c.toNat < 0x110000 := c.valid
  have hval : c.val.toNat = c.toNat := rfl
  have hchar : some c = some (Char.ofNat c.toNat) := congrArg some c.ofNat_toNat.symm
  rw [hchar, String.utf8EncodeChar, hval]
  generalize c.toNat = v at hvalid
  split
  · refine pieces_one (octet ?_ rfl) ?_ <;> omega
  · split
    · refine pieces_two (octet ?_ ?_) (octet ?_ rfl) ?_ ?_ <;> omega
    · split
      · refine pieces_three (octet ?_ ?_) (octet ?_ rfl) (octet ?_ rfl) ?_ ?_ ?_ <;> omega
      · refine pieces_four (octet ?_ ?_) (octet ?_ rfl) (octet ?_ rfl) (octet ?_ rfl) ?_ ?_ <;> omega

theorem encode_cons (c : Char) (cs : List Char) :
    encode (String.ofList (c :: cs)) = String.utf8EncodeChar c ++ encode (String.ofList cs) := by
  simp [encode]

theorem encodeChar_ascii (h : b.toNat < 0x80) : String.utf8EncodeChar (Char.ofNat b.toNat) = [b] := by
  have hvalue : (Char.ofNat b.toNat).val.toNat = b.toNat := by
    have hvalid : b.toNat.isValidChar := .inl (by omega)
    rw [Char.ofNat, dif_pos hvalid]
    rfl
  have hle : b.toNat ≤ 127 := by omega
  simp only [String.utf8EncodeChar, hvalue, hle, ↓reduceIte, UInt8.ofNat_toNat]

theorem pieces_flatMap_encodeChar (cs : List Char) :
    pieces .boundary (cs.flatMap String.utf8EncodeChar) = cs.map some := by
  induction cs with
  | nil => rfl
  | cons c rest ih => rw [List.flatMap_cons, pieces_encodeChar, ih, List.map_cons]

/-- A text is read back from its octets. -/
theorem decodeLossy_encode (text : String) : decodeLossy (encode text) = text := by
  rw [decodeLossy, encode, pieces_flatMap_encodeChar, List.map_map]
  exact (congrArg String.ofList (List.map_id _)).trans String.ofList_toList

section AtSigns

variable {s : State} {a : Bytes}

/-- Inside a character only octets beyond ASCII are expected, and the character will be beyond it. -/
def State.BeyondAscii : State → Prop
  | .boundary => True
  | .inside more low _ value =>
    0x80 ≤ low.toNat ∧ (more ≤ 1 → 2 ≤ value) ∧ (1 < more → 2 ≤ value * 64 + (low.toNat - 0x80))

theorem eq_of_ofNat_eq_at {n : Nat} (h : Char.ofNat n = '@') : n = 0x40 := by
  by_cases hn : n.isValidChar
  · rw [Char.ofNat, dif_pos hn] at h
    exact congrArg Char.toNat h
  · rw [Char.ofNat, dif_neg hn] at h
    cases h

/-- At a boundary an octet is a character, or none, or begins one that is beyond ASCII. -/
theorem start_cases (b : UInt8) : start b = ([some (Char.ofNat b.toNat)], .boundary) ∨
    start b = ([none], .boundary) ∨ ∃ next : State, start b = ([], next) ∧ next.BeyondAscii := by
  have twoOctets {n : Nat} (hn : 2 ≤ n) : (State.inside 1 0x80 0xBF n).BeyondAscii :=
    ⟨Nat.le_refl _, fun _ => hn, fun h => absurd h (by decide)⟩
  have longer {more n : Nat} {high : UInt8} (hmore : 1 < more) (hn : 1 ≤ n) :
      (State.inside more 0x80 high n).BeyondAscii :=
    ⟨Nat.le_refl _, fun h => absurd h (by omega), fun _ => by omega⟩
  unfold start
  dsimp only
  split
  · exact .inl rfl
  split
  · exact .inr (.inl rfl)
  split
  · exact .inr (.inr ⟨_, rfl, twoOctets (by omega)⟩)
  split
  · exact .inr (.inr ⟨_, rfl, by decide, fun h => absurd h (by decide), fun _ => by decide⟩)
  split
  · exact .inr (.inr ⟨_, rfl, longer (by decide) (by decide)⟩)
  split
  · exact .inr (.inr ⟨_, rfl, longer (by decide) (by omega)⟩)
  split
  · exact .inr (.inr ⟨_, rfl, by decide, fun h => absurd h (by decide), fun _ => by decide⟩)
  split
  · exact .inr (.inr ⟨_, rfl, longer (by decide) (by omega)⟩)
  split
  · exact .inr (.inr ⟨_, rfl, longer (by decide) (by decide)⟩)
  · exact .inr (.inl rfl)

theorem beyondAscii_start (b : UInt8) : (start b).2.BeyondAscii := by
  rcases start_cases b with h | h | ⟨next, h, hnext⟩
  · rw [h]
    trivial
  · rw [h]
    trivial
  · rw [h]
    exact hnext

theorem start_at (h : some '@' ∈ (start b).1) : b = 0x40 := by
  rcases start_cases b with hb | hb | ⟨next, hb, -⟩
  · rw [hb, List.mem_singleton, Option.some.injEq] at h
    exact UInt8.toNat_inj.1 (eq_of_ofNat_eq_at h.symm)
  · rw [hb] at h
    cases List.mem_singleton.1 h
  · rw [hb] at h
    cases h

theorem State.BeyondAscii.step (hs : s.BeyondAscii) (b : UInt8) : (step s b).2.BeyondAscii := by
  cases s with
  | boundary => exact beyondAscii_start b
  | inside more low high value =>
    simp only [Utf8.step]
    split
    · next hb =>
      have hle := UInt8.le_iff_toNat_le.1 hb.1
      split
      · trivial
      · next hmore =>
        have hvalue := hs.2.2 (Nat.not_le.1 hmore)
        exact ⟨Nat.le_refl _, fun _ => by omega, fun _ => by omega⟩
    · exact beyondAscii_start b

/-- An at sign comes only from its own octet. -/
theorem State.BeyondAscii.at_of_mem_step (hs : s.BeyondAscii) (h : some '@' ∈ (Utf8.step s b).1) : b = 0x40 := by
  cases s with
  | boundary => exact start_at h
  | inside more low high value =>
    simp only [Utf8.step] at h
    split at h
    · split at h
      · next hmore =>
        have hvalue := hs.2.1 hmore
        have hat := eq_of_ofNat_eq_at (Option.some.inj (List.mem_singleton.1 h)).symm
        omega
      · cases h
    · rcases List.mem_cons.1 h with h | h
      · cases h
      · exact start_at h

/-- An at sign ends what stands before it. -/
theorem State.BeyondAscii.step_at (hs : s.BeyondAscii) :
    Utf8.step s 0x40 = (finish s ++ [some '@'], .boundary) := by
  cases s with
  | boundary => rfl
  | inside more low high value =>
    have hnot : ¬(low ≤ 0x40 ∧ (0x40 : UInt8) ≤ high) := fun h =>
      absurd (Nat.le_trans hs.1 (UInt8.le_iff_toNat_le.1 h.1)) (by decide)
    rw [Utf8.step, if_neg hnot]
    rfl

theorem pieces_append_at (hs : s.BeyondAscii) (a b : Bytes) :
    pieces s (a ++ 0x40 :: b) = pieces s a ++ some '@' :: pieces .boundary b := by
  induction a generalizing s with
  | nil =>
    rw [List.nil_append, pieces_cons, hs.step_at]
    exact List.append_assoc _ _ _
  | cons octet rest ih =>
    rw [List.cons_append, pieces_cons, pieces_cons, ih (hs.step octet), List.append_assoc]

theorem at_not_mem_pieces (hs : s.BeyondAscii) (ha : (0x40 : UInt8) ∉ a) : some '@' ∉ pieces s a := by
  induction a generalizing s with
  | nil => cases s <;> simp [pieces, finish]
  | cons octet rest ih =>
    rw [List.mem_cons, not_or] at ha
    rw [pieces_cons, List.mem_append, not_or]
    exact ⟨fun h => ha.1 (hs.at_of_mem_step h).symm, ih (hs.step octet) ha.2⟩

/-- Octets may be cut at an at sign before they are decoded. -/
theorem decodeLossy_append_at (a b : Bytes) :
    (decodeLossy (a ++ 0x40 :: b)).toList = (decodeLossy a).toList ++ '@' :: (decodeLossy b).toList := by
  simp only [decodeLossy, String.toList_ofList, pieces_append_at (s := .boundary) trivial, List.map_append,
    List.map_cons, Option.getD_some]

theorem at_not_mem_decodeLossy (ha : (0x40 : UInt8) ∉ a) : '@' ∉ (decodeLossy a).toList := by
  simp only [decodeLossy, String.toList_ofList, List.mem_map, not_exists, not_and]
  intro piece hpiece hat
  cases piece with
  | none => exact absurd hat (by decide)
  | some c =>
    cases hat
    exact at_not_mem_pieces (s := .boundary) trivial ha hpiece

/-- ASCII octets are characters, and characters of their own. -/
theorem encode_decodeLossy (ha : ∀ octet ∈ a, octet.toNat < 0x80) : encode (decodeLossy a) = a := by
  have hoctets : a = encode (String.ofList (a.map fun octet => Char.ofNat octet.toNat)) := by
    induction a with
    | nil => rfl
    | cons octet rest ih =>
      obtain ⟨hoctet, hrest⟩ := List.forall_mem_cons.1 ha
      rw [List.map_cons, encode_cons, ← ih hrest, encodeChar_ascii hoctet]
      rfl
  rw [hoctets, decodeLossy_encode]

end AtSigns

/-- The octets of a text are counted by its size. -/
theorem length_encode (text : String) : (encode text).length = text.utf8ByteSize := by
  obtain ⟨cs, rfl⟩ : ∃ cs, text = String.ofList cs := ⟨text.toList, String.ofList_toList.symm⟩
  rw [encode, String.toList_ofList]
  induction cs with
  | nil => rfl
  | cons c rest ih =>
    rw [List.flatMap_cons, List.length_append, ih, String.length_utf8EncodeChar, String.ofList_cons,
      String.utf8ByteSize_append, String.utf8ByteSize_singleton]

end Utf8
end ChainIndex
