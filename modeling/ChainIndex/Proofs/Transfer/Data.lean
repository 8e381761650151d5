import ChainIndex.Transfer.Data
import ChainIndex.Proofs.Bytes.Hex
import ChainIndex.Proofs.Bytes.Word
import ChainIndex.Proofs.Text.Split

/-!
Data fields as they are written: a function name, and hexadecimal arguments after at signs. What is written for
transfers is read as those transfers. Arguments that are too few for their function say nothing.
-/
namespace ChainIndex

namespace TransferData

def moveFunctions : List String := [singleTransfer, nftTransfer, multiTransfer]

def render (function : String) (args : List Bytes) : Bytes := Utf8.encode function ++ args.flatMap (0x40 :: ·)

def octets (arg : Bytes) : Bytes := argument (Utf8.decodeLossy arg).toList

structure Transfer where
  token : String
  nonce : UInt64
  value : Amount

def Transfer.identifier (t : Transfer) : String :=
  if t.nonce = 0 then t.token else nftIdentifier t.token t.nonce

inductive SpellsTransfers : List Bytes → List Transfer → Prop
  | nil : SpellsTransfers [] []
  | cons {token nonce value : Bytes} {args : List Bytes} {t : Transfer} {ts : List Transfer} :
      Hex.Spells token (Utf8.encode t.token) → Hex.SpellsNumber nonce t.nonce.toNat →
      Hex.SpellsNumber value t.value.units → SpellsTransfers args ts →
      SpellsTransfers (token :: nonce :: value :: args) (t :: ts)

/-- No call at the destination, or a function and whatever arguments. -/
inductive SpellsCall : List Bytes → String → Prop
  | none : SpellsCall [] ""
  | call {text : Bytes} {further : List Bytes} {function : String} :
      Hex.Spells text (Utf8.encode function) → (∀ arg ∈ further, (0x40 : UInt8) ∉ arg) →
      SpellsCall (text :: further) function

inductive Move where
  | single (token : String) (value : Amount)
  | nft (t : Transfer) (destination : Bytes)
  | multi (ts : List Transfer) (destination : Bytes)

namespace Move

def operation : Move → String
  | single _ _ => singleTransfer
  | nft _ _ => nftTransfer
  | multi _ _ => multiTransfer

def tokens : Move → List String
  | single token _ => [token]
  | nft t _ => [t.identifier]
  | multi ts _ => ts.map Transfer.identifier

def values : Move → List Amount
  | single _ value => [value]
  | nft t _ => [t.value]
  | multi ts _ => ts.map Transfer.value

/-- The destinations that the arguments name. A single token goes to the receiver of the transaction. -/
def destinations : Move → List Bytes
  | single _ _ => []
  | nft _ destination => [destination]
  | multi _ destination => [destination]

/-- The arguments spell the move. -/
inductive Spelled : Move → List Bytes → Prop
  | single {token : String} {value : Amount} {name amount : Bytes} :
      Hex.Spells name (Utf8.encode token) → Hex.SpellsNumber amount value.units →
      Spelled (single token value) [name, amount]
  | nft {t : Transfer} {destination address : Bytes} {args : List Bytes} :
      SpellsTransfers args [t] → Hex.Spells address destination → Spelled (nft t destination) (args ++ [address])
  | multi {ts : List Transfer} {destination address count : Bytes} {args : List Bytes} :
      Hex.Spells address destination → Hex.SpellsNumber count ts.length → SpellsTransfers args ts →
      Spelled (multi ts destination) (address :: count :: args)

/-- What a data field says that spells the move and calls a function. -/
def parsed (codec : AddressFormat) (move : Move) (function : String) : ParsedData where
  operation := move.operation
  function := function
  tokens := move.tokens
  values := move.values.map Amount.text
  receivers := move.destinations.map codec.encodeOrEmpty

end Move

/-- Arguments that are too few for their function, or for the transfers that they announce. The number of arguments
itself is a word, as lists in memory have no more entries. -/
inductive TooFew : String → List Bytes → Prop
  | single {args : List Bytes} : args.length < 2 → TooFew singleTransfer args
  | nft {args : List Bytes} : args.length < 4 → TooFew nftTransfer args
  | multi {args : List Bytes} : args.length < 2 → TooFew multiTransfer args
  | announced {address count : Bytes} {rest : List Bytes} {n : Nat} :
      Hex.SpellsNumber count n → rest.length < 3 * n → rest.length < UInt64.size →
      TooFew multiTransfer (address :: count :: rest)

variable {text bytes sender receiver : Bytes} {args call : List Bytes} {function : String} {n : Nat}

section Arguments

/-- A rendered data field is cut at its at signs into the function and the arguments. -/
theorem splitAll_render {start : Bytes} (hstart : (0x40 : UInt8) ∉ start)
    (hargs : ∀ arg ∈ args, (0x40 : UInt8) ∉ arg) :
    Text.splitAll '@' (Utf8.decodeLossy (start ++ args.flatMap (0x40 :: ·))).toList =
      (Utf8.decodeLossy start).toList :: args.map fun arg => (Utf8.decodeLossy arg).toList := by
  induction args generalizing start with
  | nil =>
    rw [List.flatMap_nil, List.append_nil, List.map_nil]
    exact Text.splitAll_of_not_mem (Utf8.at_not_mem_decodeLossy hstart)
  | cons arg rest ih =>
    obtain ⟨harg, hrest⟩ := List.forall_mem_cons.1 hargs
    rw [List.flatMap_cons, List.cons_append, Utf8.decodeLossy_append_at,
      Text.splitAll_append (Utf8.at_not_mem_decodeLossy hstart), ih harg hrest, List.map_cons]

/-- A data field is read as what stands before its first at sign, and its arguments. -/
theorem parse_parts (codec : AddressFormat) {start : Bytes} (hne : start ≠ []) (hstart : (0x40 : UInt8) ∉ start)
    (hargs : ∀ arg ∈ args, (0x40 : UInt8) ∉ arg) (sender receiver : Bytes) :
    parse codec (start ++ args.flatMap (0x40 :: ·)) sender receiver =
      let parsed := parseCall codec (Utf8.decodeLossy start) (args.map octets) sender receiver
      { parsed with tokens := parsed.tokens.map Text.toField } := by
  have hsplit := splitAll_render hstart hargs
  have hbegins : ((start ++ args.flatMap (0x40 :: ·)).isEmpty ||
      (start ++ args.flatMap (0x40 :: ·)).head? == some 0x40) = false := by
    cases start with
    | nil => exact absurd rfl hne
    | cons octet rest =>
      have hoctet : octet ≠ 0x40 := fun he => hstart (he ▸ List.mem_cons_self)
      simpa using hoctet
  have hread : (args.map fun arg => (Utf8.decodeLossy arg).toList).map argument = args.map octets := by
    rw [List.map_map]
    refine List.map_congr_left fun arg _ => ?_
    rw [Function.comp_apply, octets]
  rw [parse, hbegins, if_neg Bool.false_ne_true, hsplit]
  dsimp only
  rw [hread, String.ofList_toList]

/-- A rendered data field is read by its function and arguments. -/
theorem parse_render (codec : AddressFormat)
    (hname : Utf8.encode function ≠ [] ∧ (0x40 : UInt8) ∉ Utf8.encode function)
    (hargs : ∀ arg ∈ args, (0x40 : UInt8) ∉ arg) (sender receiver : Bytes) :
    parse codec (render function args) sender receiver =
      let parsed := parseCall codec function (args.map octets) sender receiver
      { parsed with tokens := parsed.tokens.map Text.toField } := by
  rw [render, parse_parts codec hname.1 hname.2 hargs, Utf8.decodeLossy_encode]

theorem octets_of_spells (h : Hex.Spells text bytes) : octets text = bytes := by
  rw [octets, argument, String.ofList_toList, Utf8.encode_decodeLossy fun octet ho => (h.plain octet ho).1, h.decode]
  rfl

theorem toNat_octets (h : Hex.SpellsNumber text n) : (octets text).toNat = n := by
  obtain ⟨bytes, hspells, hn⟩ := h
  rw [octets_of_spells hspells, hn]

theorem toUInt64Saturating_octets (h : Hex.SpellsNumber text n) (hn : n < UInt64.size) :
    (octets text).toUInt64Saturating.toNat = n := by
  have hmin : min n (UInt64.size - 1) = n := Nat.min_eq_left (Nat.le_sub_one_of_lt hn)
  rw [Bytes.toUInt64Saturating_eq, toNat_octets h, hmin]
  exact UInt64.toNat_ofNat_of_lt' hn

theorem nonce_octets {nonce : UInt64} (h : Hex.SpellsNumber text nonce.toNat) :
    (octets text).toUInt64Saturating = nonce :=
  UInt64.toNat_inj.1 (toUInt64Saturating_octets h nonce.toNat_lt)

theorem decimal_octets {value : Amount} (h : Hex.SpellsNumber text value.units) :
    decimal (octets text) = value.text := by
  rw [decimal, Amount.ofBytes?_eq, toNat_octets h, Amount.ofNat?, dif_pos value.units_lt]
  rfl

theorem tokenName_octets {token : String} (h : Hex.Spells text (Utf8.encode token)) (nonce : UInt64) :
    tokenName (octets text) nonce = if nonce = 0 then token else nftIdentifier token nonce := by
  rw [tokenName, octets_of_spells h, Utf8.decodeLossy_encode]

theorem calledFunction_octets (h : SpellsCall call function) : calledFunction (call.map octets) = function := by
  cases h with
  | none => rfl
  | call htext _ =>
    rw [calledFunction, List.map_cons, List.headD_cons, octets_of_spells htext, Utf8.decodeLossy_encode]

theorem SpellsTransfers.length {ts : List Transfer} (h : SpellsTransfers args ts) : args.length = 3 * ts.length := by
  induction h with
  | nil => rfl
  | cons _ _ _ _ ih =>
    simp only [List.length_cons, ih]
    omega

theorem SpellsTransfers.transfers {ts : List Transfer} (h : SpellsTransfers args ts) :
    transfers (args.map octets) = ts.map fun t => (t.identifier, t.value.text) := by
  induction h with
  | nil => rfl
  | cons htoken hnonce hvalue _ ih =>
    rw [List.map_cons, List.map_cons, List.map_cons, TransferData.transfers, nonce_octets hnonce,
      decimal_octets hvalue, tokenName_octets htoken, ih]
    rfl

theorem SpellsTransfers.no_at {ts : List Transfer} (h : SpellsTransfers args ts) :
    ∀ arg ∈ args, (0x40 : UInt8) ∉ arg := by
  induction h with
  | nil => exact nofun
  | cons htoken hnonce hvalue _ ih =>
    simp only [List.forall_mem_cons]
    exact ⟨htoken.no_at, hnonce.no_at, hvalue.no_at, ih⟩

theorem SpellsCall.no_at (h : SpellsCall call function) : ∀ arg ∈ call, (0x40 : UInt8) ∉ arg := by
  cases h with
  | none => exact nofun
  | call htext hfurther => exact List.forall_mem_cons.2 ⟨htext.no_at, hfurther⟩

end Arguments

section Moves

variable {move : Move}

theorem Move.Spelled.no_at (h : move.Spelled args) : ∀ arg ∈ args, (0x40 : UInt8) ∉ arg := by
  cases h with
  | single hname hamount =>
    simp only [List.forall_mem_cons]
    exact ⟨hname.no_at, hamount.no_at, nofun⟩
  | nft hts haddress => exact List.forall_mem_append.2 ⟨hts.no_at, List.forall_mem_singleton.2 haddress.no_at⟩
  | multi haddress hcount hts =>
    simp only [List.forall_mem_cons]
    exact ⟨haddress.no_at, hcount.no_at, hts.no_at⟩

theorem plain_of_mem (h : function ∈ moveFunctions) :
    Utf8.encode function ≠ [] ∧ (0x40 : UInt8) ∉ Utf8.encode function := by
  revert function
  decide

theorem Move.operation_mem (move : Move) : move.operation ∈ moveFunctions := by
  cases move <;> simp [operation, moveFunctions]

theorem parseCall_single (codec : AddressFormat) (args : List Bytes) (sender receiver : Bytes) :
    parseCall codec singleTransfer args sender receiver = parseSingle args := if_pos rfl

theorem parseCall_nft (codec : AddressFormat) (args : List Bytes) (sender receiver : Bytes) :
    parseCall codec nftTransfer args sender receiver = parseNft codec args (sender == receiver) := by
  rw [parseCall, if_neg (by decide), if_pos rfl]

theorem parseCall_multi (codec : AddressFormat) (args : List Bytes) (sender receiver : Bytes) :
    parseCall codec multiTransfer args sender receiver = parseMulti codec args (sender == receiver) := by
  rw [parseCall, if_neg (by decide), if_neg (by decide), if_pos rfl]

theorem parseMulti_spelled (codec : AddressFormat) {ts : List Transfer} {destination address count : Bytes}
    (haddress : Hex.Spells address destination) (hcount : Hex.SpellsNumber count ts.length)
    (hts : SpellsTransfers args ts) (hlength : ts.length < UInt64.size) (hcall : SpellsCall call function) :
    parseMulti codec ((address :: count :: args ++ call).map octets) true =
      (Move.multi ts destination).parsed codec function := by
  have hannounced := toUInt64Saturating_octets hcount hlength
  have hmoved : (args.map octets).length = 3 * ts.length := by rw [List.length_map, hts.length]
  have henough : ¬(args.map octets ++ call.map octets).length < 3 * ts.length := by
    rw [List.length_append, hmoved]
    omega
  simp only [List.cons_append, List.map_cons, List.map_append, parseMulti, hannounced, henough, ↓reduceIte,
    List.take_left' hmoved, List.drop_left' hmoved, hts.transfers, octets_of_spells haddress,
    calledFunction_octets hcall]
  simp [Move.parsed, Move.operation, Move.tokens, Move.values, Move.destinations, Function.comp_def]

/-- A function that moves tokens is read as the move that its arguments spell. -/
theorem parseCall_spelled (codec : AddressFormat) (hm : move.Spelled args) (hcall : SpellsCall call function)
    (hlength : move.tokens.length < UInt64.size) (hself : move.operation ≠ singleTransfer → sender = receiver) :
    parseCall codec move.operation ((args ++ call).map octets) sender receiver = move.parsed codec function := by
  cases hm with
  | @single token value name amount hname hamount =>
    rw [Move.operation, parseCall_single]
    simp only [List.cons_append, List.nil_append, List.map_cons, parseSingle, octets_of_spells hname,
      Utf8.decodeLossy_encode, decimal_octets hamount, calledFunction_octets hcall]
    rfl
  | @nft t destination address args hts haddress =>
    have hsent : sender = receiver := hself (by rw [Move.operation]; decide)
    cases hts with
    | cons htoken hnonce hvalue hrest =>
      cases hrest
      rw [Move.operation, parseCall_nft, beq_iff_eq.2 hsent]
      simp only [List.cons_append, List.nil_append, List.map_cons, parseNft, nonce_octets hnonce,
        tokenName_octets htoken, decimal_octets hvalue, octets_of_spells haddress, calledFunction_octets hcall]
      rfl
  | @multi ts destination address count args haddress hcount hts =>
    have hsent : sender = receiver := hself (by rw [Move.operation]; decide)
    rw [Move.operation, parseCall_multi, beq_iff_eq.2 hsent]
    rw [Move.tokens, List.length_map] at hlength
    exact parseMulti_spelled codec haddress hcount hts hlength hcall

/-- The data field of a move, with a call behind it or none, is read as that move. -/
theorem parse_spelled (codec : AddressFormat) (hm : move.Spelled args) (hcall : SpellsCall call function)
    (hlength : move.tokens.length < UInt64.size)
    (hfits : ∀ token ∈ move.tokens, token.utf8ByteSize ≤ Text.fieldLimit)
    (hself : move.operation ≠ singleTransfer → sender = receiver) :
    parse codec (render move.operation (args ++ call)) sender receiver = move.parsed codec function := by
  have hfields : move.tokens.map Text.toField = move.tokens :=
    (List.map_congr_left fun token ht => if_pos (hfits token ht)).trans (List.map_id _)
  have hplain := plain_of_mem move.operation_mem
  rw [parse_render codec hplain (List.forall_mem_append.2 ⟨hm.no_at, hcall.no_at⟩),
    parseCall_spelled codec hm hcall hlength hself]
  dsimp only [Move.parsed]
  rw [hfields]

end Moves

section TooFew

/-- A count beyond the words is read as the greatest word, and that is still more than can be held. -/
theorem lt_announced {rest : List Bytes} (h : Hex.SpellsNumber text n) (hfew : rest.length < 3 * n)
    (hlength : rest.length < UInt64.size) : rest.length < 3 * (octets text).toUInt64Saturating.toNat := by
  have hsize : UInt64.size = 18446744073709551616 := rfl
  have hword : min n (UInt64.size - 1) < UInt64.size := by omega
  rw [Bytes.toUInt64Saturating_eq, toNat_octets h, Nat.toUInt64_eq, UInt64.toNat_ofNat_of_lt' hword]
  omega

theorem parseSingle_of_length_lt (h : args.length < 2) : parseSingle args = { operation := singleTransfer } := by
  match args, h with
  | [], _ => rfl
  | [_], _ => rfl

theorem parseNft_of_length_lt (codec : AddressFormat) (h : args.length < 4) (selfSent : Bool) :
    parseNft codec args selfSent = { operation := nftTransfer } := by
  match selfSent, args, h with
  | false, _, _ => rfl
  | true, [], _ => rfl
  | true, [_], _ => rfl
  | true, [_, _], _ => rfl
  | true, [_, _, _], _ => rfl

theorem parseMulti_of_length_lt (codec : AddressFormat) (h : args.length < 2) (selfSent : Bool) :
    parseMulti codec args selfSent = { operation := multiTransfer } := by
  match selfSent, args, h with
  | false, _, _ => rfl
  | true, [], _ => rfl
  | true, [_], _ => rfl

/-- More transfers are announced than the arguments hold. -/
theorem parseMulti_of_announced (codec : AddressFormat) (address : Bytes) {count : Bytes} {rest : List Bytes}
    (h : rest.length < 3 * count.toUInt64Saturating.toNat) (selfSent : Bool) :
    parseMulti codec (address :: count :: rest) selfSent = { operation := multiTransfer } := by
  cases selfSent with
  | false => rfl
  | true => exact if_pos h

theorem TooFew.function_mem (h : TooFew function args) : function ∈ moveFunctions := by
  cases h <;> simp [moveFunctions]

/-- A function without all of its arguments moves nothing. -/
theorem parseCall_tooFew (codec : AddressFormat) (h : TooFew function args) (sender receiver : Bytes) :
    parseCall codec function (args.map octets) sender receiver = { operation := function } := by
  have hlength : (args.map octets).length = args.length := List.length_map _
  cases h with
  | single hfew => rw [parseCall_single, parseSingle_of_length_lt (hlength ▸ hfew)]
  | nft hfew => rw [parseCall_nft, parseNft_of_length_lt codec (hlength ▸ hfew)]
  | multi hfew => rw [parseCall_multi, parseMulti_of_length_lt codec (hlength ▸ hfew)]
  | @announced address count rest n hcount hfew hsmall =>
    have hmore := lt_announced hcount hfew hsmall
    rw [← List.length_map octets] at hmore
    rw [parseCall_multi, List.map_cons, List.map_cons, parseMulti_of_announced codec (octets address) hmore]

/-- Only who sends to himself moves non-fungible tokens. -/
theorem parseCall_of_ne (codec : AddressFormat) (h : sender ≠ receiver) (hf : function ∈ moveFunctions)
    (hmany : function ≠ singleTransfer) (args : List Bytes) :
    parseCall codec function args sender receiver = { operation := function } := by
  have hsent : (sender == receiver) = false := beq_eq_false_iff_ne.2 h
  simp only [moveFunctions, List.mem_cons, List.not_mem_nil, or_false] at hf
  rcases hf with rfl | rfl | rfl
  · exact absurd rfl hmany
  · rw [parseCall_nft, hsent]
    rfl
  · rw [parseCall_multi, hsent]
    rfl

end TooFew

/-- Data fields that spell a move are read as it: all transfers in order, the destination, and the function that is
called. Of a field with too few arguments only the operation is read, and so of one that an account has to send to
itself and sends to another. -/
theorem parse_undoes_render (codec : AddressFormat) (sender receiver : Bytes) :
    (∀ (move : Move) (args call : List Bytes) (function : String), move.Spelled args → SpellsCall call function →
      move.tokens.length < UInt64.size → (∀ token ∈ move.tokens, token.utf8ByteSize ≤ Text.fieldLimit) →
      (move.operation ≠ singleTransfer → sender = receiver) →
      parse codec (render move.operation (args ++ call)) sender receiver = move.parsed codec function) ∧
    (∀ (function : String) (args : List Bytes), TooFew function args →
      (∀ arg ∈ args, (0x40 : UInt8) ∉ arg) →
      parse codec (render function args) sender receiver = { operation := function }) ∧
    (∀ (function : String) (args : List Bytes), sender ≠ receiver → function ∈ moveFunctions →
      function ≠ singleTransfer → (∀ arg ∈ args, (0x40 : UInt8) ∉ arg) →
      parse codec (render function args) sender receiver = { operation := function }) := by
  refine ⟨fun move args call function hm hcall hlength hfits hself =>
      parse_spelled codec hm hcall hlength hfits hself,
    fun function args hfew hargs => ?_, fun function args hne hf hmany hargs => ?_⟩
  · rw [parse_render codec (plain_of_mem hfew.function_mem) hargs, parseCall_tooFew codec hfew]
    rfl
  · rw [parse_render codec (plain_of_mem hf) hargs, parseCall_of_ne codec hne hf hmany]
    rfl

section TwoTransfers

def twoTransfers : List Transfer :=
  [⟨"TKN-abcd", 0, ⟨100, by decide⟩⟩, ⟨"NFT-abcd", 2, ⟨1, by decide⟩⟩]

def twoArguments : List Bytes :=
  (Utf8.encode "TKN-abcd" :: [] :: [100] :: Utf8.encode "NFT-abcd" :: [0, 2] :: [[1]]).map fun bytes =>
    Utf8.encode bytes.hex

def callSwap : List Bytes := [Utf8.encode (Bytes.hex (Utf8.encode "swap")), [0x78, 0x79]]

def beyondWords : List Bytes := [Utf8.encode "07", Utf8.encode (Bytes.hex (1 :: List.replicate 8 0))]

def marked : AddressFormat := ⟨fun address => .ok ("at:" ++ address.hex), fun _ => .error .empty⟩

theorem spells_twoArguments : SpellsTransfers twoArguments twoTransfers := by
  refine .cons (Hex.spells_hex _) ⟨_, Hex.spells_hex _, rfl⟩ ⟨_, Hex.spells_hex _, rfl⟩ ?_
  exact .cons (Hex.spells_hex _) ⟨_, Hex.spells_hex _, rfl⟩ ⟨_, Hex.spells_hex _, rfl⟩ .nil

theorem tokens_twoTransfers : (Move.multi twoTransfers [7]).tokens = ["TKN-abcd", "NFT-abcd-02"] := by
  have hoctets : Bytes.ofNat (2 : UInt64).toNat = [2] := by simp [Bytes.ofNat, Bytes.digits256]
  have hnonce : nonceHex 2 = "02" := congrArg Bytes.hex hoctets
  simp only [Move.tokens, twoTransfers, List.map_cons, List.map_nil, Transfer.identifier, nftIdentifier, hnonce]
  decide

theorem parse_undoes_render_two :
    (Move.multi twoTransfers [7]).Spelled (Utf8.encode "07" :: Utf8.encode "02" :: twoArguments) ∧
      SpellsCall callSwap "swap" ∧
      parse marked (render multiTransfer (Utf8.encode "07" :: Utf8.encode "02" :: twoArguments ++ callSwap)) [1] [1] =
        { operation := multiTransfer, function := "swap", tokens := ["TKN-abcd", "NFT-abcd-02"],
          values := ["100", "1"], receivers := ["at:07"] } ∧
      TooFew multiTransfer beyondWords ∧
      parse marked (render multiTransfer beyondWords) [1] [1] = { operation := multiTransfer } ∧
      parse marked (render multiTransfer beyondWords) [1] [2] = { operation := multiTransfer } := by
  obtain ⟨hmove, hfew, -⟩ := parse_undoes_render marked [1] [1]
  have hm : (Move.multi twoTransfers [7]).Spelled (Utf8.encode "07" :: Utf8.encode "02" :: twoArguments) :=
    .multi (Hex.spells_hex [7]) ⟨[2], Hex.spells_hex [2], rfl⟩ spells_twoArguments
  have hcall : SpellsCall callSwap "swap" := .call (Hex.spells_hex _) (by decide)
  have hfits : ∀ token ∈ (Move.multi twoTransfers [7]).tokens, token.utf8ByteSize ≤ Text.fieldLimit := by
    rw [tokens_twoTransfers]
    decide
  have hparse := hmove _ _ _ _ hm hcall (by decide) hfits fun _ => rfl
  have hbeyond : TooFew multiTransfer beyondWords :=
    .announced ⟨1 :: List.replicate 8 0, Hex.spells_hex _, rfl⟩ (by decide) (by decide)
  refine ⟨hm, hcall, hparse.trans ?_, hbeyond, hfew _ _ hbeyond (by decide),
    (parse_undoes_render marked [1] [2]).2.2 _ _ (by decide) (by decide) (by decide) (by decide)⟩
  rw [Move.parsed, tokens_twoTransfers]
  decide

end TwoTransfers

end TransferData
end ChainIndex
