import ChainIndex.Correlation.Basic
import ChainIndex.Proofs.Text.Field
import ChainIndex.Proofs.Transfer.Called

/-!
The sizes of the texts in records. What is cut to the limit of a field keeps to it, however it was decoded. The function
that a data field calls is not cut, so it keeps to the limit only if its name does.
-/
namespace ChainIndex

namespace Text

def Fits (text : String) : Prop := text.utf8ByteSize ≤ fieldLimit

theorem fits_toField (text : String) : Fits (toField text) := utf8ByteSize_cut_le fieldLimit text

theorem fits_empty : Fits "" := Nat.zero_le _

theorem utf8ByteSize_letters (n : Nat) : (String.ofList (List.replicate n 'a')).utf8ByteSize = n := by
  induction n with
  | zero => rfl
  | succ n ih =>
    have hletter : 'a'.utf8Size = 1 := by decide
    rw [List.replicate_succ, String.ofList_cons, String.utf8ByteSize_append, String.utf8ByteSize_singleton, ih, hletter,
      Nat.add_comm]

theorem encode_letters (n : Nat) : Utf8.encode (String.ofList (List.replicate n 'a')) = List.replicate n 0x61 := by
  induction n with
  | zero => rfl
  | succ n ih =>
    have hletter : String.utf8EncodeChar 'a' = [0x61] := by decide
    rw [List.replicate_succ, Utf8.encode_cons, ih, hletter, List.replicate_succ]
    rfl

end Text

open Text (Fits)

theorem Bytes.fits_toField (bytes : Bytes) : Fits bytes.toField := Text.fits_toField _

namespace TransferData

variable {data sender receiver : Bytes}

theorem fits_tokens (codec : AddressFormat) (data sender receiver : Bytes) :
    ∀ token ∈ (parse codec data sender receiver).tokens, Fits token := by
  unfold parse
  split
  · exact nofun
  · split
    · exact nofun
    · exact List.forall_mem_map.2 fun token _ => Text.fits_toField token

/-- The function that is read keeps to the limit if and only if what the data field calls does. -/
theorem fits_function_iff (codec : AddressFormat) :
    Fits (parse codec data sender receiver).function ↔ ∀ name, Called data sender receiver name → Fits name := by
  constructor
  · intro h name hname
    rwa [hname.function_parse codec] at h
  · intro h
    by_cases hne : (parse codec data sender receiver).function = ""
    · rw [hne]
      exact Text.fits_empty
    · exact h _ (called_of_function_ne codec hne)

/-- A contract is called by the whole text that it is sent, if that has no at sign and is no function of the chain. -/
theorem called_contract {function : String} (hne : Utf8.encode function ≠ [])
    (hat : (0x40 : UInt8) ∉ Utf8.encode function) (hchain : function ∉ chainFunctions)
    (hcontract : isContract receiver = true) : Called (Utf8.encode function) sender receiver function := by
  refine ⟨Utf8.encode function, [], ⟨hne, hat, nofun⟩, (List.append_nil _).symm, ?_⟩
  rw [Utf8.decodeLossy_encode]
  exact .contract hchain hcontract

end TransferData

namespace Correlator

open TransferData (Called)

/-- Of the texts that a record takes from the octets of its transaction or result, all but the function that is called
keep to the limit of a field, and that function does if and only if the name that the data field has for it does. -/
theorem keywords_fit_iff (c : Correlator) (header : Header) (body : Body) (pool : Pool) (signals : Dict StatusInfo) :
    (∀ tx ∈ (c.correlate header body pool signals).transactions,
      (Fits tx.record.data ∧ ∀ token ∈ tx.record.parsed.tokens, Fits token) ∧
        ∃ info, (tx.record.hash, info) ∈ pool.transactions ∧
          (Fits tx.record.parsed.function ↔
            ∀ name, Called info.transaction.data info.transaction.sender info.transaction.receiver name → Fits name)) ∧
    (∀ r ∈ (c.correlate header body pool signals).scResults,
      (Fits r.data ∧ Fits r.code ∧ Fits r.returnMessage ∧ ∀ token ∈ r.parsed.tokens, Fits token) ∧
        ∃ info, (r.hash, info) ∈ pool.scResults ∧
          (Fits r.parsed.function ↔
            ∀ name, Called info.result.data info.result.sender info.result.receiver name → Fits name)) := by
  constructor
  · intro tx htx
    obtain ⟨⟨hash, info⟩, hinfo, rfl⟩ := List.mem_map.1 htx
    exact ⟨⟨Bytes.fits_toField _, TransferData.fits_tokens _ _ _ _⟩, info, hinfo, TransferData.fits_function_iff _⟩
  · intro r hr
    obtain ⟨⟨hash, info⟩, hinfo, rfl⟩ := List.mem_map.1 hr
    exact ⟨⟨Bytes.fits_toField _, Bytes.fits_toField _, Bytes.fits_toField _, TransferData.fits_tokens _ _ _ _⟩, info,
      hinfo, TransferData.fits_function_iff _⟩

/-- A contract that is sent one letter more than a field may hold. -/
theorem keywords_fit_iff_letters :
    let function := String.ofList (List.replicate (Text.fieldLimit + 1) 'a')
    let contract : Bytes := List.replicate 8 0 ++ [1]
    let call : Transaction := { data := Utf8.encode function, receiver := contract }
    ∃ tx ∈ (correlate {} {} {} { transactions := [("aa", { transaction := call })] } []).transactions,
      Fits tx.record.data ∧ ¬Fits tx.record.parsed.function := by
  intro function contract call
  have hlong : ¬Fits function := by
    rw [Fits, Text.utf8ByteSize_letters]
    exact Nat.not_succ_le_self _
  have hchain : function ∉ TransferData.chainFunctions := fun h =>
    hlong ((by decide : ∀ name ∈ TransferData.chainFunctions, name.utf8ByteSize ≤ Text.fieldLimit) _ h)
  have hoctets : Utf8.encode function = List.replicate (Text.fieldLimit + 1) 0x61 := Text.encode_letters _
  have hne : Utf8.encode function ≠ [] := by
    rw [hoctets]
    exact List.cons_ne_nil _ _
  have hat : (0x40 : UInt8) ∉ Utf8.encode function := by
    rw [hoctets, List.mem_replicate]
    exact fun h => absurd h.2 (by decide)
  have hcontract : TransferData.isContract contract = true := by decide
  -- Only its size counts from here on.
  clear_value function
  have hcalled : Called call.data call.sender call.receiver function :=
    TransferData.called_contract hne hat hchain hcontract
  have hrecords := (keywords_fit_iff {} {} {} { transactions := [("aa", { transaction := call })] } []).1
  obtain ⟨⟨hdata, -⟩, info, hinfo, hiff⟩ := hrecords _ (List.mem_singleton.2 rfl)
  obtain ⟨-, rfl⟩ := Prod.mk.inj (List.mem_singleton.1 hinfo)
  exact ⟨_, List.mem_singleton.2 rfl, hdata, fun hfits => hlong (hiff.1 hfits function hcalled)⟩

end Correlator
end ChainIndex
