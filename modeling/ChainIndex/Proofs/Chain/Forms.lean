import ChainIndex.Chain.Block
import ChainIndex.Proofs.Json.Records
import ChainIndex.Proofs.Json.Text

/-!
What the chain delivers, and the entries of its tokens, come back from their JSON texts.
-/
namespace ChainIndex

namespace Json

variable {α : Type} {f : α → Json}

theorem exact_nat {n : Nat} (h : n < Amount.bound) : Exact (.nat n) := by
  have hbound : Amount.bound ≤ 10 ^ 40 := by decide
  have hpow : 10 ^ 40 ≤ 10 ^ doubleDigits := Nat.pow_le_pow_right (by decide) (by decide)
  exact .int ((Nat.length_toDigits_le_iff (by decide) (by decide)).2 (Nat.lt_of_lt_of_le h (Nat.le_trans hbound hpow)))

@[simp] theorem exact_uint8 (n : UInt8) : Exact (.nat n.toNat) := exact_nat (Nat.lt_trans n.toNat_lt (by decide))

@[simp] theorem exact_uint32 (n : UInt32) : Exact (.nat n.toNat) := exact_nat (Nat.lt_trans n.toNat_lt (by decide))

@[simp] theorem exact_uint64 (n : UInt64) : Exact (.nat n.toNat) := exact_nat (Nat.lt_trans n.toNat_lt (by decide))

@[simp] theorem exact_units (a : Amount) : Exact (.nat a.units) := exact_nat a.units_lt

@[simp] theorem exact_str (s : String) : Exact (.str s) := .str s

@[simp] theorem exact_arr_iff {items : List Json} : Exact (.arr items) ↔ ∀ item ∈ items, Exact item :=
  ⟨fun | .arr h => h, .arr⟩

@[simp] theorem exact_obj_iff {members : List (String × Json)} :
    Exact (.obj members) ↔ ∀ member ∈ members, Exact member.2 :=
  ⟨fun | .obj h => h, .obj⟩

@[simp] theorem exact_octets (bytes : Bytes) : Exact (.octets bytes) := by
  simp [octets]

theorem exact_option (h : ∀ x, Exact (f x)) (x : Option α) : Exact (.option f x) := by
  cases x with
  | none => exact .null
  | some x => exact h x

theorem exact_map (h : ∀ x, Exact (f x)) (xs : List α) : Exact (.arr (xs.map f)) := by
  simp [h]

theorem exact_dict (h : ∀ x, Exact (f x)) (d : Dict α) : Exact (.obj (d.map fun (k, v) => (k, f v))) := by
  refine .obj fun member hmember => ?_
  obtain ⟨e, -, rfl⟩ := List.mem_map.1 hmember
  exact h e.2

end Json

open Json

namespace TokenMetadata

@[simp] theorem exact_toJson (m : TokenMetadata) : Exact m.toJson := by
  simp [toJson]

@[simp] theorem ofJson?_toJson (m : TokenMetadata) : ofJson? m.toJson = some m := by
  have hslots : m.toJson.record? fieldNames = _ := record?_written (by simp [fieldNames]) rfl
  rw [ofJson?, hslots]
  simp [list?_map]

end TokenMetadata

namespace DigitalToken

@[simp] theorem exact_toJson (t : DigitalToken) : Exact t.toJson := by
  simp [toJson, Json.exact_option]

@[simp] theorem ofJson?_toJson (t : DigitalToken) : ofJson? t.toJson = some t := by
  have hslots : t.toJson.record? fieldNames = _ := record?_written (by simp [fieldNames]) rfl
  rw [ofJson?, hslots]
  simp [Json.str?, Json.nullable?_option TokenMetadata.ofJson?_toJson rfl]

end DigitalToken

namespace TokenBalance

@[simp] theorem exact_toJson (t : TokenBalance) : Exact t.toJson := by
  simp [toJson, Json.exact_option]

@[simp] theorem ofJson?_toJson (t : TokenBalance) : ofJson? t.toJson = some t := by
  have hslots : t.toJson.record? fieldNames = _ := record?_written (by simp [fieldNames]) rfl
  rw [ofJson?, hslots]
  simp [Json.str?, Json.nullable?_option TokenMetadata.ofJson?_toJson rfl]

end TokenBalance

namespace AlteredAccount

@[simp] theorem exact_toJson (a : AlteredAccount) : Exact a.toJson := by
  simp [toJson]

@[simp] theorem ofJson?_toJson (a : AlteredAccount) : ofJson? a.toJson = some a := by
  have hslots : a.toJson.record? fieldNames = _ := record?_written (by simp [fieldNames]) rfl
  rw [ofJson?, hslots]
  simp [Json.str?, list?_map]

end AlteredAccount

namespace Header

@[simp] theorem exact_toJson (h : Header) : Exact h.toJson := by
  simp [toJson]

@[simp] theorem ofJson?_toJson (h : Header) : ofJson? h.toJson = some h := by
  have hslots : h.toJson.record? fieldNames = _ := record?_written (by simp [fieldNames]) rfl
  rw [ofJson?, hslots]
  simp

end Header

namespace MiniBlockKind

theorem ofLabel?_label (k : MiniBlockKind) : ofLabel? k.label = some k := by
  cases k <;> simp [ofLabel?, all, label]

@[simp] theorem ofJson?_label (k : MiniBlockKind) : ofJson? (.str k.label) = some k := ofLabel?_label k

end MiniBlockKind

namespace MiniBlock

@[simp] theorem exact_toJson (m : MiniBlock) : Exact m.toJson := by
  simp [toJson]

@[simp] theorem ofJson?_toJson (m : MiniBlock) : ofJson? m.toJson = some m := by
  have hslots : m.toJson.record? fieldNames = _ := record?_written (by simp [fieldNames]) rfl
  rw [ofJson?, hslots]
  simp [list?_map]

end MiniBlock

namespace Body

@[simp] theorem exact_toJson (b : Body) : Exact b.toJson := by
  simp [toJson]

@[simp] theorem ofJson?_toJson (b : Body) : ofJson? b.toJson = some b := by
  have hslots : b.toJson.record? ["mini_blocks"] = _ := record?_written (by decide) rfl
  rw [ofJson?, hslots]
  simp [list?_map]

end Body

namespace FeeInfo

@[simp] theorem exact_toJson (f : FeeInfo) : Exact f.toJson := by
  simp [toJson]

@[simp] theorem ofJson?_toJson (f : FeeInfo) : ofJson? f.toJson = some f := by
  have hslots : f.toJson.record? fieldNames = _ := record?_written (by simp [fieldNames]) rfl
  rw [ofJson?, hslots]
  simp

end FeeInfo

namespace Transaction

@[simp] theorem exact_toJson (t : Transaction) : Exact t.toJson := by
  simp [toJson]

@[simp] theorem ofJson?_toJson (t : Transaction) : ofJson? t.toJson = some t := by
  have hslots : t.toJson.record? fieldNames = _ := record?_written (by simp [fieldNames]) rfl
  rw [ofJson?, hslots]
  simp

end Transaction

namespace TxInfo

@[simp] theorem exact_toJson (t : TxInfo) : Exact t.toJson := by
  simp [toJson]

@[simp] theorem ofJson?_toJson (t : TxInfo) : ofJson? t.toJson = some t := by
  have hslots : t.toJson.record? fieldNames = _ := record?_written (by simp [fieldNames]) rfl
  rw [ofJson?, hslots]
  simp

end TxInfo

namespace ScResult

@[simp] theorem exact_toJson (r : ScResult) : Exact r.toJson := by
  simp [toJson]

@[simp] theorem ofJson?_toJson (r : ScResult) : ofJson? r.toJson = some r := by
  have hslots : r.toJson.record? fieldNames = _ := record?_written (by simp [fieldNames]) rfl
  rw [ofJson?, hslots]
  simp only [List.map_cons, List.map_nil, Slot.required?_given, uint64?_toNat, uint32?_toNat, amount?_units,
    octets?_octets, some_bind]
  rfl

end ScResult

namespace ScResultInfo

@[simp] theorem exact_toJson (r : ScResultInfo) : Exact r.toJson := by
  simp [toJson]

@[simp] theorem ofJson?_toJson (r : ScResultInfo) : ofJson? r.toJson = some r := by
  have hslots : r.toJson.record? fieldNames = _ := record?_written (by simp [fieldNames]) rfl
  rw [ofJson?, hslots]
  simp

end ScResultInfo

namespace Event

@[simp] theorem exact_toJson (e : Event) : Exact e.toJson := by
  simp [toJson]

@[simp] theorem ofJson?_toJson (e : Event) : ofJson? e.toJson = some e := by
  have hslots : e.toJson.record? fieldNames = _ := record?_written (by simp [fieldNames]) rfl
  rw [ofJson?, hslots]
  simp [Json.str?, list?_map]

end Event

namespace Log

@[simp] theorem exact_toJson (l : Log) : Exact l.toJson := by
  simp [toJson]

@[simp] theorem ofJson?_toJson (l : Log) : ofJson? l.toJson = some l := by
  have hslots : l.toJson.record? fieldNames = _ := record?_written (by simp [fieldNames]) rfl
  rw [ofJson?, hslots]
  simp [Json.str?, list?_map]

end Log

/-- The maps of a decoded block have each of their keys once and in order. -/
structure Block.Sorted (b : Block) : Prop where
  transactions : b.pool.transactions.Sorted
  scResults : b.pool.scResults.Sorted
  accounts : b.accounts.Sorted

namespace Pool

@[simp] theorem exact_toJson (p : Pool) : Exact p.toJson := by
  refine .obj fun member hmember => ?_
  simp only [List.mem_cons, List.not_mem_nil, or_false] at hmember
  rcases hmember with rfl | rfl | rfl
  · exact Json.exact_dict TxInfo.exact_toJson p.transactions
  · exact Json.exact_dict ScResultInfo.exact_toJson p.scResults
  · exact Json.exact_map Log.exact_toJson p.logs

theorem ofJson?_toJson (p : Pool) (ht : p.transactions.Sorted) (hr : p.scResults.Sorted) :
    ofJson? p.toJson = some p := by
  have hslots : p.toJson.record? fieldNames = _ := record?_written (by simp [fieldNames]) rfl
  rw [ofJson?, hslots]
  simp [Json.dict?_map ht, Json.dict?_map hr, list?_map]

end Pool

namespace Block

@[simp] theorem exact_toJson (b : Block) : Exact b.toJson := by
  refine .obj fun member hmember => ?_
  simp only [List.mem_cons, List.not_mem_nil, or_false] at hmember
  rcases hmember with rfl | rfl | rfl | rfl
  · exact b.header.exact_toJson
  · exact b.body.exact_toJson
  · exact b.pool.exact_toJson
  · exact Json.exact_dict AlteredAccount.exact_toJson b.accounts

theorem ofJson?_toJson (b : Block) (h : b.Sorted) : ofJson? b.toJson = some b := by
  have hslots : b.toJson.record? fieldNames = _ := record?_written (by simp [fieldNames]) rfl
  rw [ofJson?, hslots]
  simp [Pool.ofJson?_toJson b.pool h.transactions h.scResults, Json.dict?_map h.accounts]

end Block

/-- Chain data survives its JSON text: every token entry is decoded from its encoding, whatever its texts
and octets are, and so is every block from the text of its form, whatever its amounts, maps and octets. -/
theorem chain_data_read_back (t : DigitalToken) (b : Block) (h : b.Sorted) :
    DigitalToken.decode? t.encode = some t ∧
      (Json.parse? (Utf8.encode b.toJson.text)).bind Block.ofJson? = some b := by
  constructor
  · rw [DigitalToken.decode?, DigitalToken.encode, Json.parse?_text t.exact_toJson, Option.bind_some,
      DigitalToken.ofJson?_toJson]
  · rw [Json.parse?_text b.exact_toJson, Option.bind_some, Block.ofJson?_toJson b h]

/-- A text of a quote, a backslash, control characters and a character beyond sixteen bits; the greatest
amount and nonce; keys that need escapes. -/
theorem chain_data_read_back_escaped :
    let text := "\"\\\n\x01\x7f😀"
    let token : DigitalToken :=
      { kind := 1, value := text, properties := [0, 255], metadata := some { nonce := 19, uris := [[], [0x75]] } }
    let greatest : Amount := ⟨Amount.bound - 1, by decide⟩
    let block : Block :=
      { header := { hash := [1, 0xbb], timestamp := 0xFFFFFFFFFFFFFFFF }
        body := { miniBlocks := [{ kind := .rewards, txHashes := [[0xaa], []] }] }
        pool :=
          { transactions := [("", {}), ("\"\\", { transaction := { value := greatest, data := [0, 10] } })]
            scResults := [("b1", { feeInfo := { fee := greatest } })]
            logs := [{ txHash := text, events := [{ identifier := text, topics := [[], [1]] }] }] }
        accounts := [("aa", { balance := text, tokens := [{ metadata := token.metadata }, {}] })] }
    block.Sorted ∧ DigitalToken.decode? token.encode = some token ∧
      (Json.parse? (Utf8.encode block.toJson.text)).bind Block.ofJson? = some block := by
  intro text token greatest block
  have hsorted : block.Sorted := by
    refine ⟨?_, List.pairwise_singleton _ _, List.pairwise_singleton _ _⟩
    unfold Dict.Sorted
    decide +kernel
  exact ⟨hsorted, chain_data_read_back token block hsorted⟩

end ChainIndex
