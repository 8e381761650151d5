import ChainIndex.Proofs.Json.Tokens

/-!
A printed value is read back from its octets. Doubles are left out: what stands in the text of one is
the shortest decimal, not its bits.
-/
namespace ChainIndex
namespace Json

open Utf8 (ofChars ofChars_append)

/-- What a text carries to the last digit: neither doubles, nor integers longer than a double's, nor
tokens that stand for nothing. -/
inductive Exact : Json → Prop
  | null : Exact .null
  | bool (b : Bool) : Exact (.bool b)
  | int {z : Int} (h : (Nat.toDigits 10 z.natAbs).length ≤ doubleDigits) : Exact (.int z)
  | str (s : String) : Exact (.str s)
  | arr {items : List Json} (h : ∀ item ∈ items, Exact item) : Exact (.arr items)
  | obj {members : List (String × Json)} (h : ∀ member ∈ members, Exact member.2) : Exact (.obj members)

def Scans (j : Json) : Prop :=
  ∀ (fuel : Nat) (rest : Bytes), (ofChars j.print).length < fuel → Ends rest →
    scanValue fuel (ofChars j.print ++ rest) = some (j, rest)

theorem scans_of_succ {j : Json} (h : ∀ (fuel : Nat) (rest : Bytes), (ofChars j.print).length ≤ fuel → Ends rest →
    scanValue (fuel + 1) (ofChars j.print ++ rest) = some (j, rest)) : Scans j := by
  intro fuel rest hfuel hrest
  cases fuel with
  | zero => exact absurd hfuel (Nat.not_lt_zero _)
  | succ fuel => exact h fuel rest (Nat.le_of_lt_succ hfuel) hrest

def Begins (b : UInt8) : Prop := isBlank b = false ∧ b ≠ 0x5D

theorem skipBlanks_cons {b : UInt8} (hb : isBlank b = false) (rest : Bytes) :
    skipBlanks (b :: rest) = b :: rest :=
  List.dropWhile_cons_of_neg (Bool.eq_false_iff.1 hb)

section Starts

variable {fuel : Nat} {rest : Bytes} {b : UInt8}

theorem ne_of_isDigit {c : UInt8} (hb : isDigit b = true) (hc : isDigit c = false) : b ≠ c := by
  rintro rfl
  exact absurd (hb.symm.trans hc) Bool.noConfusion

theorem begins_of_isDigit (hb : isDigit b = true) : Begins b := by
  have hblank : isBlank b = false := by
    simp only [isBlank, Bool.or_eq_false_iff, beq_eq_false_iff_ne]
    exact ⟨⟨⟨ne_of_isDigit hb rfl, ne_of_isDigit hb rfl⟩, ne_of_isDigit hb rfl⟩, ne_of_isDigit hb rfl⟩
  exact ⟨hblank, ne_of_isDigit hb rfl⟩

theorem scanValue_digit (hb : isDigit b = true) :
    scanValue (fuel + 1) (b :: rest) = scanNumber false (b :: rest) := by
  rw [scanValue, skipBlanks_cons (begins_of_isDigit hb).1]
  split
  case h_8 => rfl
  all_goals
    next h => exact absurd (List.cons.inj h).1 (ne_of_isDigit hb rfl)

theorem scanValue_minus : scanValue (fuel + 1) (0x2D :: rest) = scanNumber true rest := by
  rw [scanValue, skipBlanks_cons rfl]
  rfl

theorem scanValue_quote : scanValue (fuel + 1) (0x22 :: rest) =
    (scanText rest).map fun (text, rest) => ((text.map Json.str).getD .unreadable, rest) := by
  rw [scanValue, skipBlanks_cons rfl]
  rfl

theorem scanValue_bracket (hb : Begins b) : scanValue (fuel + 1) (0x5B :: b :: rest) =
    (scanItems fuel (b :: rest)).map fun (items, rest) => (.arr items, rest) := by
  rw [scanValue, skipBlanks_cons rfl]
  simp only [skipBlanks_cons hb.1]
  split
  · next h => exact absurd (List.cons.inj h).1 hb.2
  · rfl

theorem scanValue_brace : scanValue (fuel + 1) (0x7B :: 0x22 :: rest) =
    (scanMembers fuel (0x22 :: rest)).map fun (members, rest) => (object members, rest) := by
  rw [scanValue, skipBlanks_cons rfl]
  rfl

end Starts

theorem ofChars_toDigits (n : Nat) :
    ∃ b more, ofChars (Nat.toDigits 10 n) = b :: more ∧ isDigit b = true := by
  obtain ⟨hall, hlength, -⟩ := ofChars_digits fun c => isDigit_of_mem_toDigits (n := n)
  cases h : ofChars (Nat.toDigits 10 n) with
  | nil =>
    rw [h] at hlength
    exact absurd hlength (Nat.ne_of_lt Nat.length_toDigits_pos)
  | cons b more => exact ⟨b, more, rfl, hall b (h ▸ List.mem_cons_self)⟩

theorem begins_print {j : Json} (h : Exact j) : ∃ b more, ofChars j.print = b :: more ∧ Begins b := by
  cases h with
  | null => exact ⟨_, _, rfl, rfl, by decide⟩
  | bool b => cases b <;> exact ⟨_, _, rfl, rfl, by decide⟩
  | @int z h =>
    rw [print, printInt]
    split
    · exact ⟨_, _, rfl, rfl, by decide⟩
    · obtain ⟨b, more, hdigits, hb⟩ := ofChars_toDigits z.natAbs
      exact ⟨b, more, hdigits, begins_of_isDigit hb⟩
  | str s => exact ⟨_, _, rfl, rfl, by decide⟩
  | arr h => exact ⟨_, _, rfl, rfl, by decide⟩
  | obj h => exact ⟨_, _, rfl, rfl, by decide⟩

theorem ends_cons {b : UInt8} {rest : Bytes} (hb : isDigit b = false ∧ b ≠ 0x2E ∧ b ≠ 0x65 ∧ b ≠ 0x45) :
    Ends (b :: rest) := by
  intro c hc
  cases hc
  exact hb

theorem scans_int {z : Int} (h : (Nat.toDigits 10 z.natAbs).length ≤ doubleDigits) : Scans (.int z) := by
  refine scans_of_succ fun fuel rest hfuel hrest => ?_
  rw [print, printInt]
  split
  · next hneg =>
    have hminus : ofChars (['-'] ++ Nat.toDigits 10 z.natAbs) = 0x2D :: ofChars (Nat.toDigits 10 z.natAbs) := rfl
    have hvalue : -(z.natAbs : Int) = z := by omega
    rw [hminus, List.cons_append, scanValue_minus, scanNumber_toDigits h (fun _ => by omega) hrest, if_pos rfl, hvalue]
  · next hpos =>
    obtain ⟨b, more, hdigits, hb⟩ := ofChars_toDigits z.natAbs
    have hvalue : (z.natAbs : Int) = z := by omega
    rw [List.nil_append, hdigits, List.cons_append, scanValue_digit hb, ← List.cons_append, ← hdigits,
      scanNumber_toDigits h (fun h => Bool.noConfusion h) hrest, if_neg Bool.false_ne_true, hvalue]

theorem scans_str (s : String) : Scans (.str s) := by
  refine scans_of_succ fun fuel rest hfuel hrest => ?_
  obtain ⟨inside, hinside, hscan⟩ := scanText_printText s
  rw [print, hinside, List.cons_append, scanValue_quote, hscan]
  rfl

section Lists

variable {fuel : Nat} {rest : Bytes}

/-- Printed items are scanned again, up to the bracket that closes them. -/
theorem scanItems_print {items : List Json} (hitems : ∀ item ∈ items, Scans item) (hne : items ≠ [])
    (hfuel : (ofChars (printItems items)).length + 1 < fuel) :
    scanItems fuel (ofChars (printItems items) ++ 0x5D :: rest) = some (items, rest) := by
  induction items generalizing fuel with
  | nil => exact absurd rfl hne
  | cons item more ih =>
    obtain ⟨hitem, hmore⟩ := List.forall_mem_cons.1 hitems
    obtain ⟨fuel, rfl⟩ := Nat.exists_eq_add_one_of_ne_zero (Nat.ne_of_gt (Nat.zero_lt_of_lt hfuel))
    cases more with
    | nil =>
      rw [printItems] at hfuel ⊢
      rw [scanItems, hitem fuel _ (by omega) (ends_cons (by decide))]
      simp only [skipBlanks_cons (b := 0x5D) rfl]
    | cons next more =>
      have hprint : ofChars (printItems (item :: next :: more)) =
          ofChars item.print ++ 0x2C :: ofChars (printItems (next :: more)) := by
        rw [printItems, ofChars_append]
        · rfl
        · exact List.cons_ne_nil _ _
      rw [hprint, List.length_append, List.length_cons] at hfuel
      rw [hprint, List.append_assoc, List.cons_append, scanItems, hitem fuel _ (by omega) (ends_cons (by decide))]
      simp only [skipBlanks_cons (b := 0x2C) rfl]
      rw [ih hmore (List.cons_ne_nil _ _) (by omega)]
      rfl

section Member

variable {name : String} {value : Json} {text after : Bytes}

theorem scanMembers_last (hname : scanText text = some (some name, 0x3A :: after))
    (hvalue : scanValue fuel after = some (value, 0x7D :: rest)) :
    scanMembers (fuel + 1) (0x22 :: text) = some ([(some name, value)], rest) := by
  rw [scanMembers, skipBlanks_cons rfl]
  simp only [hname, skipBlanks_cons (b := 0x3A) rfl, hvalue, skipBlanks_cons (b := 0x7D) rfl]

theorem scanMembers_next {more : Bytes} {members : List (Option String × Json)}
    (hname : scanText text = some (some name, 0x3A :: after))
    (hvalue : scanValue fuel after = some (value, 0x2C :: more))
    (hmore : scanMembers fuel more = some (members, rest)) :
    scanMembers (fuel + 1) (0x22 :: text) = some ((some name, value) :: members, rest) := by
  rw [scanMembers, skipBlanks_cons rfl]
  simp only [hname, skipBlanks_cons (b := 0x3A) rfl, hvalue, skipBlanks_cons (b := 0x2C) rfl, hmore, Option.map_some]

end Member

/-- Printed members are scanned again, up to the brace that closes them. -/
theorem scanMembers_print {members : List (String × Json)} (hmembers : ∀ member ∈ members, Scans member.2)
    (hne : members ≠ []) (hfuel : (ofChars (printMembers members)).length + 1 < fuel) :
    scanMembers fuel (ofChars (printMembers members) ++ 0x7D :: rest) =
      some (members.map fun (name, value) => (some name, value), rest) := by
  induction members generalizing fuel with
  | nil => exact absurd rfl hne
  | cons member more ih =>
    obtain ⟨name, value⟩ := member
    obtain ⟨(hvalue : Scans value), hmore⟩ := List.forall_mem_cons.1 hmembers
    obtain ⟨fuel, rfl⟩ := Nat.exists_eq_add_one_of_ne_zero (Nat.ne_of_gt (Nat.zero_lt_of_lt hfuel))
    obtain ⟨inside, hinside, hscan⟩ := scanText_printText name
    cases more with
    | nil =>
      have hprint : ofChars (printMembers [(name, value)]) = 0x22 :: (inside ++ 0x3A :: ofChars value.print) := by
        rw [printMembers, ofChars_append, hinside]
        rfl
      rw [hprint] at hfuel ⊢
      simp only [List.length_cons, List.length_append] at hfuel
      rw [List.cons_append, List.append_assoc, List.cons_append]
      exact scanMembers_last (hscan _) (hvalue fuel _ (by omega) (ends_cons (by decide)))
    | cons next more =>
      have hprint : ofChars (printMembers ((name, value) :: next :: more)) =
          0x22 :: (inside ++ 0x3A :: (ofChars value.print ++ 0x2C :: ofChars (printMembers (next :: more)))) := by
        rw [printMembers, ofChars_append, hinside]
        · exact congrArg (fun after => 0x22 :: (inside ++ 0x3A :: after)) (ofChars_append _ _)
        · exact List.cons_ne_nil _ _
      rw [hprint] at hfuel ⊢
      simp only [List.length_cons, List.length_append] at hfuel
      rw [List.cons_append, List.append_assoc, List.cons_append, List.append_assoc, List.cons_append]
      exact scanMembers_next (hscan _) (hvalue fuel _ (by omega) (ends_cons (by decide)))
        (ih hmore (List.cons_ne_nil _ _) (by omega))

theorem object_names (members : List (String × Json)) :
    object (members.map fun (name, value) => (some name, value)) = .obj members := by
  rw [object, mapM_map_some]
  exact fun _ _ => rfl

end Lists

/-- Every exact value is scanned from its printed form. -/
theorem Exact.scans {j : Json} (h : Exact j) : Scans j := by
  induction h with
  | null =>
    refine scans_of_succ fun fuel rest hfuel _ => ?_
    rfl
  | bool b =>
    refine scans_of_succ fun fuel rest hfuel _ => ?_
    cases b <;> rfl
  | int h => exact scans_int h
  | str s => exact scans_str s
  | @arr items hitems ih =>
    refine scans_of_succ fun fuel rest hfuel _ => ?_
    cases items with
    | nil => rfl
    | cons item more =>
      obtain ⟨b, tail, hb, hbegins⟩ := begins_print (hitems item List.mem_cons_self)
      have hfirst : ∃ tail, ofChars (printItems (item :: more)) = b :: tail := by
        cases more with
        | nil => exact ⟨tail, hb⟩
        | cons next more =>
          refine ⟨tail ++ ofChars (',' :: printItems (next :: more)), ?_⟩
          rw [printItems, ofChars_append, hb]
          · rfl
          · exact List.cons_ne_nil _ _
      obtain ⟨tail, hfirst⟩ := hfirst
      have hprint : ofChars (Json.arr (item :: more)).print =
          0x5B :: (ofChars (printItems (item :: more)) ++ [0x5D]) :=
        congrArg (0x5B :: ·) (ofChars_append _ _)
      have hroom : (ofChars (printItems (item :: more))).length + 1 < fuel := by
        rw [hprint, List.length_cons, List.length_append, List.length_singleton] at hfuel
        omega
      have hscan := @scanItems_print fuel rest _ ih (List.cons_ne_nil _ _) hroom
      rw [hfirst, List.cons_append] at hscan
      rw [hprint, List.cons_append, List.append_assoc, List.singleton_append, hfirst, List.cons_append,
        scanValue_bracket hbegins, hscan]
      rfl
  | @obj members hmembers ih =>
    refine scans_of_succ fun fuel rest hfuel _ => ?_
    cases members with
    | nil => rfl
    | cons member more =>
      obtain ⟨tail, hfirst⟩ : ∃ tail, ofChars (printMembers (member :: more)) = 0x22 :: tail := by
        cases more <;> exact ⟨_, rfl⟩
      have hprint : ofChars (Json.obj (member :: more)).print =
          0x7B :: (ofChars (printMembers (member :: more)) ++ [0x7D]) :=
        congrArg (0x7B :: ·) (ofChars_append _ _)
      have hroom : (ofChars (printMembers (member :: more))).length + 1 < fuel := by
        rw [hprint, List.length_cons, List.length_append, List.length_singleton] at hfuel
        omega
      have hscan := @scanMembers_print fuel rest _ ih (List.cons_ne_nil _ _) hroom
      rw [hfirst, List.cons_append] at hscan
      rw [hprint, List.cons_append, List.append_assoc, List.singleton_append, hfirst, List.cons_append,
        scanValue_brace, hscan]
      exact congrArg (fun j => some (j, rest)) (object_names (member :: more))

/-- Every exact value is read back from the octets of its text. -/
theorem parse?_text {j : Json} (h : Exact j) : parse? (Utf8.encode j.text) = some j := by
  have hoctets : Utf8.encode j.text = ofChars j.print := by
    rw [Utf8.encode, text, String.toList_ofList, ofChars]
  have hscan := h.scans ((ofChars j.print).length + 1) [] (Nat.lt_succ_self _) (fun b hb => by cases hb)
  rw [List.append_nil] at hscan
  rw [parse?, hoctets, hscan]
  rfl

end Json
end ChainIndex
