import ChainIndex.Json.Slots
import ChainIndex.Proofs.Dictionary
import ChainIndex.Proofs.Json.Tokens

/-!
What the readers of fields and records make of what the writers of fields and records write.
-/
namespace ChainIndex
namespace Json

/-! ## Slots -/

def Slot.ofFound : Option Json → Slot
  | some value => .given value
  | none => .absent

@[simp] theorem Slot.ofFound_some (value : Json) : ofFound (some value) = .given value := rfl

@[simp] theorem Slot.ofFound_none : ofFound none = .absent := rfl

section Slots

variable {members : List (String × Json)}

/-- Where no name comes twice, a slot is what is found under its name. -/
theorem slot?_eq (h : (members.map Prod.fst).Nodup) (name : String) :
    slot? members name = some (.ofFound (Dict.find? members name)) := by
  induction members with
  | nil => rfl
  | cons member rest ih =>
    obtain ⟨k, value⟩ := member
    obtain ⟨hk, hrest⟩ := List.nodup_cons.1 h
    rw [slot?, Dict.find?]
    by_cases hname : k = name
    · subst hname
      rw [if_pos rfl, List.filter_cons_of_pos, List.filter_eq_nil_iff.2, Slot.ofFound_some]
      · exact fun member hmember hsame => hk (List.mem_map.2 ⟨member, hmember, beq_iff_eq.1 hsame⟩)
      · exact beq_self_eq_true k
    · rw [if_neg hname, List.filter_cons_of_neg, ← slot?, ih hrest]
      exact fun h => hname (beq_iff_eq.1 h)

theorem named?_obj (h : (members.map Prod.fst).Nodup) (names : List String) :
    named? names (.obj members) = some (names.map fun name => .ofFound (Dict.find? members name)) := by
  rw [named?, funext (slot?_eq h)]
  exact List.mapM_pure

theorem record?_obj (h : (members.map Prod.fst).Nodup) (names : List String) :
    record? names (.obj members) = some (names.map fun name => .ofFound (Dict.find? members name)) :=
  named?_obj h names

/-- A record that is written with all of its fields in their order. -/
theorem record?_written {names : List String} (h : names.Nodup) (hnames : members.map Prod.fst = names) :
    record? names (.obj members) = some (members.map fun member => .given member.2) := by
  subst hnames
  rw [record?_obj h, List.map_map]
  refine congrArg some (List.map_congr_left fun member hmember => ?_)
  rw [Function.comp_apply, Dict.find?_of_mem h hmember, Slot.ofFound_some]

end Slots

/-! ## Readers step by step

None of these is proved by `rfl`. A step that holds by computation is checked by computation, and then the
readers of numbers would be evaluated as well, one number below their bound after another. -/

@[simp high] theorem some_bind {α β : Type} (a : α) (f : α → Option β) : (some a >>= f) = f a := by
  rw [Option.bind_eq_bind, Option.bind_some]

namespace Slot

variable {α : Type} (read : Json → Option α) (j : Json)

@[simp] theorem required?_given : required? read (.given j) = read j := by rw [required?]

@[simp] theorem orElse?_given (value : α) : orElse? value read (.given j) = read j := by rw [orElse?]

@[simp] theorem orElse?_absent (value : α) : orElse? value read .absent = some value := by
  rw [orElse?]
  exact fun _ h => Slot.noConfusion h

@[simp] theorem optional?_given : optional? read (.given j) = nullable? read j := by rw [optional?]

@[simp] theorem optional?_absent : optional? read .absent = some none := by rw [optional?]

end Slot

/-! ## Fields -/

section Fields

variable {α : Type} {f : α → Json} {read : Json → Option α}

theorem natBelow?_nat {n bound : Nat} (h : n < bound) : natBelow? bound (.nat n) = some n := by
  have hrange : 0 ≤ (n : Int) ∧ (n : Int) < bound := ⟨Int.natCast_nonneg n, Int.ofNat_lt.2 h⟩
  rw [nat, natBelow?, if_pos hrange, Int.toNat_natCast]

@[simp] theorem uint8?_toNat (n : UInt8) : uint8? (.nat n.toNat) = some n := by
  rw [uint8?, natBelow?_nat n.toNat_lt]
  exact congrArg some UInt8.ofNat_toNat

@[simp] theorem uint32?_toNat (n : UInt32) : uint32? (.nat n.toNat) = some n := by
  rw [uint32?, natBelow?_nat n.toNat_lt]
  exact congrArg some UInt32.ofNat_toNat

@[simp] theorem uint64?_toNat (n : UInt64) : uint64? (.nat n.toNat) = some n := by
  rw [uint64?, natBelow?_nat n.toNat_lt]
  exact congrArg some UInt64.ofNat_toNat

@[simp] theorem amount?_units (a : Amount) : amount? (.nat a.units) = some a := by
  rw [amount?, natBelow?_nat a.units_lt, Option.bind_some, Amount.ofNat?, dif_pos a.units_lt]

@[simp] theorem amountText?_text (a : Amount) : amountText? (.str a.text) = some a := Amount.ofText?_text a

theorem list?_map_of_mem {xs : List α} (h : ∀ x ∈ xs, read (f x) = some x) : list? read (.arr (xs.map f)) = some xs :=
  mapM_map_some h

theorem list?_map (h : ∀ x, read (f x) = some x) (xs : List α) : list? read (.arr (xs.map f)) = some xs :=
  list?_map_of_mem fun x _ => h x

@[simp] theorem octets?_octets (bytes : Bytes) : octets? (.octets bytes) = some bytes := list?_map uint8?_toNat bytes

@[simp] theorem strings?_strings (texts : List String) : strings? (.strings texts) = some texts :=
  list?_map (f := .str) (fun _ => rfl) texts

theorem nullable?_option (h : ∀ x, read (f x) = some x) (hnull : read .null = none) (x : Option α) :
    nullable? read (.option f x) = some x := by
  cases x with
  | none => rfl
  | some x =>
    rw [option, nullable?, h]
    · rfl
    · intro hx
      rw [← hx, h] at hnull
      cases hnull

theorem dict?_map {d : Dict α} (hd : d.Sorted) (h : ∀ x, read (f x) = some x) :
    dict? read (.obj (d.map fun (k, v) => (k, f v))) = some d := by
  have hentry (e : String × α) : (read (f e.2)).map (e.1, ·) = some e := by rw [h, Option.map_some]
  have hentries : (d.map fun (k, v) => (k, f v)).mapM
      (fun (member : String × Json) => (read member.2).map (member.1, ·)) = some d :=
    mapM_map_some fun e _ => hentry e
  rw [dict?, hentries, Option.map_some, hd.ofList_eq_self]

end Fields

end Json
end ChainIndex
