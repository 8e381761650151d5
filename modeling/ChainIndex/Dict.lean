/-!
Dictionaries with text keys, kept as lists in key order. Looking up after an insertion or a removal
needs no assumption on the list; the order makes equal dictionaries equal lists.
-/
namespace ChainIndex

abbrev Dict (α : Type) := List (String × α)

namespace Dict

variable {α β : Type}

def find? : Dict α → String → Option α
  | [], _ => none
  | (k, v) :: rest, key => if k = key then some v else find? rest key

def has (d : Dict α) (key : String) : Bool := (d.find? key).isSome

def insert : Dict α → String → α → Dict α
  | [], key, value => [(key, value)]
  | (k, v) :: rest, key, value =>
    if k = key then (key, value) :: rest
    else if key < k then (key, value) :: (k, v) :: rest
    else (k, v) :: insert rest key value

def erase (d : Dict α) (key : String) : Dict α := d.filter fun (k, _) => k ≠ key

def keys (d : Dict α) : List String := d.map Prod.fst

def values (d : Dict α) : List α := d.map Prod.snd

/-- The dictionary of a list of entries: a later entry replaces an earlier one of the same key. -/
def ofList (entries : List (String × α)) : Dict α :=
  entries.foldl (fun d (k, v) => d.insert k v) []

def extend (d more : Dict α) : Dict α := more.foldl (fun d (k, v) => d.insert k v) d

def insertIfAbsent (d : Dict α) (key : String) (value : α) : Dict α :=
  if d.has key then d else d.insert key value

/-- Replaces the value of a key by what `f` makes of it, or enters what `f` makes of nothing. -/
def alter (d : Dict α) (key : String) (f : Option α → α) : Dict α :=
  d.insert key (f (d.find? key))

def Sorted (d : Dict α) : Prop := d.Pairwise fun a b => a.1 < b.1

@[simp] theorem find?_nil (key : String) : find? ([] : Dict α) key = none := rfl

/-- Other keys keep their values. -/
theorem find?_insert (d : Dict α) (key other : String) (value : α) :
    (d.insert key value).find? other = if key = other then some value else d.find? other := by
  induction d with
  | nil => simp [insert, find?]
  | cons entry rest ih =>
    obtain ⟨k, v⟩ := entry
    by_cases hk : k = key
    · subst hk
      by_cases ho : k = other <;> simp [insert, find?, ho]
    · by_cases hlt : key < k
      · simp [insert, find?, hk, hlt]
      · by_cases ho : k = other
        · subst ho
          simp [insert, find?, hk, hlt, Ne.symm hk]
        · simp [insert, find?, hk, hlt, ho, ih]

theorem find?_erase (d : Dict α) (key other : String) :
    (d.erase key).find? other = if key = other then none else d.find? other := by
  induction d with
  | nil => simp [erase]
  | cons entry rest ih =>
    obtain ⟨k, v⟩ := entry
    simp only [erase, List.filter_cons] at ih ⊢
    by_cases hk : k = key
    · subst hk
      by_cases ho : k = other
      · simpa [ho] using ih
      · simpa [find?, ho] using ih
    · by_cases ho : k = other
      · subst ho
        simp [find?, hk, Ne.symm hk]
      · simpa [find?, hk, ho] using ih

end Dict
end ChainIndex
