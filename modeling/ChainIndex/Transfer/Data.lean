import ChainIndex.Bytes.Hex
import ChainIndex.Address
import ChainIndex.Amount
import ChainIndex.Text.Field
import ChainIndex.Text.Split
import ChainIndex.Token.Identifier
import ChainIndex.Json.Slots

/-!
The data field of a transaction: a function name and hexadecimal arguments between at signs. The
functions that move tokens are read in full; built-in functions and contract calls only by name.
-/
namespace ChainIndex

structure ParsedData where
  operation : String := ""
  function : String := ""
  tokens : List String := []
  values : List String := []
  receivers : List String := []
deriving DecidableEq, Repr, Inhabited

namespace ParsedData

def fieldNames : List String := ["operation", "function", "tokens", "dcdtValues", "receivers"]

def detailFields (p : ParsedData) : List (String × Json) :=
  Json.textField "function" p.function ++ Json.textsField "tokens" p.tokens ++
    Json.textsField "dcdtValues" p.values ++ Json.textsField "receivers" p.receivers

def toJson (p : ParsedData) : Json := .obj (("operation", .str p.operation) :: p.detailFields)

def ofJson? (j : Json) : Option ParsedData := do
  let [operation, function, tokens, values, receivers] ← j.record? fieldNames | none
  return {
    operation := ← operation.required? Json.str?
    function := ← function.orElse? "" Json.str?
    tokens := ← tokens.orElse? [] Json.strings?
    values := ← values.orElse? [] Json.strings?
    receivers := ← receivers.orElse? [] Json.strings? }

end ParsedData

namespace TransferData

def transferOperation : String := "transfer"
def callOperation : String := "scCall"

def singleTransfer : String := "DCDTTransfer"
def nftTransfer : String := "DCDTNFTTransfer"
def multiTransfer : String := "MultiDCDTNFTTransfer"

def supplyFunctions : List String := ["DCDTLocalMint", "DCDTLocalBurn"]

def nftSupplyFunctions : List String := ["DCDTNFTAddQuantity", "DCDTNFTBurn"]

/-- Further functions of the chain itself, which label the operation with their own name. -/
def builtInFunctions : List String := [
  "DCDTNFTCreate", "DCDTNFTAddURI", "DCDTNFTUpdateAttributes", "DCDTFreeze", "DCDTUnFreeze",
  "DCDTWipe", "DCDTSetRole", "DCDTUnSetRole", "DCDTNFTCreateRoleTransfer", "DCDTMetaDataRecreate",
  "DCDTMetaDataUpdate", "DCDTSetNewURIs", "DCDTModifyCreator", "DCDTModifyRoyalties",
  "ChangeOwnerAddress", "ClaimDeveloperRewards", "SaveKeyValue", "SetUserName", "SetGuardian",
  "GuardAccount", "UnGuardAccount"]

/-- The address of a contract begins with eight zero octets and goes on. -/
def isContract (address : Bytes) : Bool := 8 < address.length && (address.take 8).all (· == 0)

def decimal (value : Bytes) : String := ((Amount.ofBytes? value).getD .zero).text

def tokenName (token : Bytes) (nonce : UInt64) : String :=
  let token := Utf8.decodeLossy token
  if nonce = 0 then token else nftIdentifier token nonce

def calledFunction (rest : List Bytes) : String := Utf8.decodeLossy (rest.headD [])

def transfers : List Bytes → List (String × String)
  | token :: nonce :: value :: rest =>
    (tokenName token nonce.toUInt64Saturating, decimal value) :: transfers rest
  | _ => []

def parseSingle (args : List Bytes) : ParsedData :=
  match args with
  | token :: value :: rest => {
      operation := singleTransfer
      tokens := [Utf8.decodeLossy token]
      values := [decimal value]
      function := calledFunction rest }
  | _ => { operation := singleTransfer }

/-- Only a transaction that an account sends to itself moves non-fungible tokens. -/
def parseNft (codec : AddressFormat) (args : List Bytes) (selfSent : Bool) : ParsedData :=
  match selfSent, args with
  | true, token :: nonce :: value :: destination :: rest => {
      operation := nftTransfer
      tokens := [tokenName token nonce.toUInt64Saturating]
      values := [decimal value]
      receivers := [codec.encodeOrEmpty destination]
      function := calledFunction rest }
  | _, _ => { operation := nftTransfer }

/-- Announced transfers that the arguments cannot hold make the whole field empty. -/
def parseMulti (codec : AddressFormat) (args : List Bytes) (selfSent : Bool) : ParsedData :=
  match selfSent, args with
  | true, destination :: count :: rest =>
    let count := count.toUInt64Saturating.toNat
    if rest.length < 3 * count then { operation := multiTransfer }
    else
      let moved := transfers (rest.take (3 * count))
      { operation := multiTransfer
        tokens := moved.map Prod.fst
        values := moved.map Prod.snd
        receivers := [codec.encodeOrEmpty destination]
        function := calledFunction (rest.drop (3 * count)) }
  | _, _ => { operation := multiTransfer }

def parseSupply (function : String) (args : List Bytes) : ParsedData :=
  match args with
  | token :: value :: _ =>
    { operation := function, tokens := [Utf8.decodeLossy token], values := [decimal value] }
  | _ => { operation := function }

def parseNftSupply (function : String) (args : List Bytes) : ParsedData :=
  match args with
  | token :: nonce :: value :: _ =>
    { operation := function
      tokens := [nftIdentifier (Utf8.decodeLossy token) nonce.toUInt64Saturating]
      values := [decimal value] }
  | _ => { operation := function }

def parseCall (codec : AddressFormat) (function : String) (args : List Bytes)
    (sender receiver : Bytes) : ParsedData :=
  if function = singleTransfer then parseSingle args
  else if function = nftTransfer then parseNft codec args (sender == receiver)
  else if function = multiTransfer then parseMulti codec args (sender == receiver)
  else if supplyFunctions.contains function then parseSupply function args
  else if nftSupplyFunctions.contains function then parseNftSupply function args
  else if builtInFunctions.contains function then { operation := function }
  else if isContract receiver then { operation := callOperation, function }
  else { operation := transferOperation }

def argument (text : List Char) : Bytes :=
  (Hex.decode (Utf8.encode (String.ofList text))).toOption.getD []

/-- Reads a data field. One that is empty or begins with an at sign is a plain transfer. -/
def parse (codec : AddressFormat) (data sender receiver : Bytes) : ParsedData :=
  if data.isEmpty || data.head? == some 0x40 then { operation := transferOperation }
  else
    match Text.splitAll '@' (Utf8.decodeLossy data).toList with
    | [] => { operation := transferOperation }
    | function :: args =>
      let parsed := parseCall codec (String.ofList function) (args.map argument) sender receiver
      { parsed with tokens := parsed.tokens.map Text.toField }

end TransferData
end ChainIndex
