import ChainIndex.Proofs.Transfer.Data

/-!
The function that a data field calls: its own, where a contract receives the field, or the argument after those of a
transfer. What is read is the whole text that names it.
-/
namespace ChainIndex
namespace TransferData

def chainFunctions : List String := moveFunctions ++ supplyFunctions ++ nftSupplyFunctions ++ builtInFunctions

/-- A function and its arguments call the function of this name. Non-fungible tokens are moved by who sends a
transaction to himself. -/
inductive Calls (sender receiver : Bytes) : String → List Bytes → String → Prop
  | contract {function : String} {args : List Bytes} :
      function ∉ chainFunctions → isContract receiver = true → Calls sender receiver function args function
  | single {moved more : List Bytes} {name : Bytes} :
      moved.length = 2 → Calls sender receiver singleTransfer (moved ++ name :: more) (Utf8.decodeLossy (octets name))
  | nft {moved more : List Bytes} {name : Bytes} :
      sender = receiver → moved.length = 4 →
        Calls sender receiver nftTransfer (moved ++ name :: more) (Utf8.decodeLossy (octets name))
  | multi {destination count name : Bytes} {moved more : List Bytes} :
      sender = receiver → moved.length = 3 * (octets count).toUInt64Saturating.toNat →
        Calls sender receiver multiTransfer (destination :: count :: (moved ++ name :: more))
          (Utf8.decodeLossy (octets name))

/-- The octets of a data field call the function of this name. -/
def Called (data sender receiver : Bytes) (name : String) : Prop :=
  ∃ (start : Bytes) (args : List Bytes),
    (start ≠ [] ∧ (0x40 : UInt8) ∉ start ∧ ∀ arg ∈ args, (0x40 : UInt8) ∉ arg) ∧
    data = start ++ args.flatMap (0x40 :: ·) ∧ Calls sender receiver (Utf8.decodeLossy start) args name

variable {data sender receiver : Bytes} {args : List Bytes} {function name : String}

/-- Octets are parted by their at signs. -/
theorem exists_parts (data : Bytes) : ∃ (start : Bytes) (args : List Bytes),
    (0x40 : UInt8) ∉ start ∧ (∀ arg ∈ args, (0x40 : UInt8) ∉ arg) ∧ data = start ++ args.flatMap (0x40 :: ·) := by
  induction data with
  | nil => exact ⟨[], [], List.not_mem_nil, nofun, rfl⟩
  | cons octet rest ih =>
    obtain ⟨start, args, hstart, hargs, rfl⟩ := ih
    by_cases hat : octet = 0x40
    · exact ⟨[], start :: args, List.not_mem_nil, List.forall_mem_cons.2 ⟨hstart, hargs⟩, by rw [hat]; rfl⟩
    · refine ⟨octet :: start, args, fun h => ?_, hargs, rfl⟩
      exact (List.mem_cons.1 h).elim (fun h => hat h.symm) hstart

/-- Functions of the chain that move nothing call nothing, whatever their arguments. -/
theorem function_parseCall_of_chain (codec : AddressFormat) (hchain : function ∈ chainFunctions)
    (hmove : function ∉ moveFunctions) (args : List Bytes) :
    (parseCall codec function args sender receiver).function = "" := by
  simp only [moveFunctions, List.mem_cons, List.not_mem_nil, or_false, not_or] at hmove
  rw [parseCall, if_neg hmove.1, if_neg hmove.2.1, if_neg hmove.2.2]
  split
  · unfold parseSupply
    split <;> rfl
  · split
    · unfold parseNftSupply
      split <;> rfl
    · split
      · rfl
      · next hsupply hnft hbuilt =>
        simp only [List.contains_eq_mem, decide_eq_true_eq] at hsupply hnft hbuilt
        simp only [chainFunctions, moveFunctions, List.mem_append, List.mem_cons, List.not_mem_nil, or_false] at hchain
        tauto

/-- Any other function is called at a contract, and otherwise it is no call. -/
theorem parseCall_of_not_chain (codec : AddressFormat) (h : function ∉ chainFunctions) (args : List Bytes) :
    parseCall codec function args sender receiver =
      if isContract receiver then { operation := callOperation, function } else { operation := transferOperation } := by
  simp only [chainFunctions, moveFunctions, List.mem_append, List.mem_cons, List.not_mem_nil, or_false, not_or] at h
  obtain ⟨⟨⟨⟨hsingle, hnft, hmulti⟩, hsupply⟩, hnftSupply⟩, hbuilt⟩ := h
  rw [parseCall, if_neg hsingle, if_neg hnft, if_neg hmulti, if_neg (by simpa using hsupply),
    if_neg (by simpa using hnftSupply), if_neg (by simpa using hbuilt)]

section Transfers

theorem function_parseSingle (args : List Bytes) : (parseSingle args).function = calledFunction (args.drop 2) := by
  rcases args with _ | ⟨token, _ | ⟨value, rest⟩⟩ <;> rfl

theorem function_parseNft (codec : AddressFormat) (args : List Bytes) :
    (parseNft codec args true).function = calledFunction (args.drop 4) := by
  rcases args with _ | ⟨token, _ | ⟨nonce, _ | ⟨value, _ | ⟨destination, rest⟩⟩⟩⟩ <;> rfl

theorem function_parseMulti (codec : AddressFormat) (destination count : Bytes) (rest : List Bytes) :
    (parseMulti codec (destination :: count :: rest) true).function =
      calledFunction (rest.drop (3 * count.toUInt64Saturating.toNat)) := by
  by_cases hfew : rest.length < 3 * count.toUInt64Saturating.toNat
  · rw [parseMulti_of_announced codec destination hfew, List.drop_eq_nil_of_le (Nat.le_of_lt hfew)]
    rfl
  · simp only [parseMulti, hfew, ↓reduceIte]

/-- The argument after the given number of them names a function, if there is one. -/
theorem calledFunction_drop {moved : List Bytes} {n : Nat} (h : moved.length = n) (name : Bytes) (more : List Bytes) :
    calledFunction (((moved ++ name :: more).map octets).drop n) = Utf8.decodeLossy (octets name) := by
  rw [← List.map_drop, List.drop_left' h, List.map_cons, calledFunction, List.headD_cons]

/-- The name of a called function is one of the arguments. -/
theorem exists_of_calledFunction {n : Nat} (hne : name ≠ "") (h : calledFunction ((args.map octets).drop n) = name) :
    ∃ (moved more : List Bytes) (octetsOf : Bytes),
      args = moved ++ octetsOf :: more ∧ moved.length = n ∧ name = Utf8.decodeLossy (octets octetsOf) := by
  rw [← List.map_drop] at h
  cases hcall : args.drop n with
  | nil =>
    rw [hcall] at h
    exact absurd h.symm hne
  | cons first more =>
    rw [hcall, List.map_cons, calledFunction, List.headD_cons] at h
    have hargs := List.take_append_drop n args
    have hlong : n < args.length := by
      refine Nat.lt_of_not_le fun hle => ?_
      rw [List.drop_eq_nil_of_le hle] at hcall
      cases hcall
    exact ⟨args.take n, more, first, by rw [← hcall, hargs], List.length_take_of_le (Nat.le_of_lt hlong), h.symm⟩

end Transfers

/-- The function that is called is read. -/
theorem Calls.function_parseCall (h : Calls sender receiver function args name) (codec : AddressFormat) :
    (parseCall codec function (args.map octets) sender receiver).function = name := by
  cases h with
  | contract hchain hcontract => rw [parseCall_of_not_chain codec hchain, if_pos hcontract]
  | single hmoved => rw [parseCall_single, function_parseSingle, calledFunction_drop hmoved]
  | nft hself hmoved => rw [parseCall_nft, beq_iff_eq.2 hself, function_parseNft, calledFunction_drop hmoved]
  | multi hself hmoved =>
    rw [parseCall_multi, beq_iff_eq.2 hself, List.map_cons, List.map_cons, function_parseMulti,
      calledFunction_drop hmoved]

/-- A function that is read is called. -/
theorem calls_of_function_ne (codec : AddressFormat) (hne : name ≠ "")
    (h : (parseCall codec function (args.map octets) sender receiver).function = name) :
    Calls sender receiver function args name := by
  by_cases hchain : function ∈ chainFunctions
  case neg =>
    rw [parseCall_of_not_chain codec hchain] at h
    split at h
    · next hcontract => exact h ▸ .contract hchain hcontract
    · exact absurd h.symm hne
  by_cases hmove : function ∈ moveFunctions
  case neg =>
    rw [function_parseCall_of_chain codec hchain hmove] at h
    exact absurd h.symm hne
  simp only [moveFunctions, List.mem_cons, List.not_mem_nil, or_false] at hmove
  rcases hmove with rfl | rfl | rfl
  · rw [parseCall_single, function_parseSingle] at h
    obtain ⟨moved, more, first, rfl, hmoved, rfl⟩ := exists_of_calledFunction hne h
    exact .single hmoved
  · rw [parseCall_nft] at h
    cases hself : sender == receiver with
    | false =>
      rw [hself] at h
      exact absurd h.symm hne
    | true =>
      rw [hself, function_parseNft] at h
      obtain ⟨moved, more, first, rfl, hmoved, rfl⟩ := exists_of_calledFunction hne h
      exact .nft (beq_iff_eq.1 hself) hmoved
  · rw [parseCall_multi] at h
    cases hself : sender == receiver with
    | false =>
      rw [hself] at h
      exact absurd h.symm hne
    | true =>
      rcases args with _ | ⟨destination, _ | ⟨count, rest⟩⟩
      · rw [hself] at h
        exact absurd h.symm hne
      · rw [hself] at h
        exact absurd h.symm hne
      · rw [hself, List.map_cons, List.map_cons, function_parseMulti] at h
        obtain ⟨moved, more, first, rfl, hmoved, rfl⟩ := exists_of_calledFunction hne h
        exact .multi (beq_iff_eq.1 hself) hmoved

theorem Called.function_parse (h : Called data sender receiver name) (codec : AddressFormat) :
    (parse codec data sender receiver).function = name := by
  obtain ⟨start, args, ⟨hne, hstart, hargs⟩, rfl, hcalls⟩ := h
  rw [parse_parts codec hne hstart hargs]
  exact hcalls.function_parseCall codec

/-- A function that is read was called. -/
theorem called_of_function_ne (codec : AddressFormat) (hne : (parse codec data sender receiver).function ≠ "") :
    Called data sender receiver (parse codec data sender receiver).function := by
  obtain ⟨start, args, hstart, hargs, rfl⟩ := exists_parts data
  have hnonempty : start ≠ [] := by
    rintro rfl
    cases args <;> exact hne rfl
  refine ⟨start, args, ⟨hnonempty, hstart, hargs⟩, rfl, ?_⟩
  rw [parse_parts codec hnonempty hstart hargs] at hne ⊢
  exact calls_of_function_ne codec hne rfl

end TransferData
end ChainIndex
