import ChainIndex.Proofs.Accumulator.Block
import ChainIndex.Proofs.Event.Sources
import ChainIndex.Proofs.Write.Nested

/-!
The holders of roles. Of all that a block says of a role and an address the accumulator keeps the last. The list of a
role has the addresses that are granted it then, but a role whose name has a dot is kept in the place of the list of
the role before the dot, and a grant of it takes that list away.
-/
namespace ChainIndex

namespace Delta

def roleChange? : Delta → Option RoleChange
  | role change => some change
  | _ => none

theorem roleChange?_of_source {delta : Delta} (h : delta.source ≠ .roles) : delta.roleChange? = none := by
  cases delta with
  | role change => exact absurd rfl h
  | _ => rfl

end Delta

/-- What the last change of a role for an address says. -/
def lastGrant? (changes : List RoleChange) (role address : String) : Option Bool :=
  (changes.filter fun c => c.role = role ∧ c.address = address).getLast?.map (·.granted)

/-- The last change is the one that counts. -/
theorem lastGrant?_append (changes : List RoleChange) (c : RoleChange) (role address : String) :
    lastGrant? (changes ++ [c]) role address =
      if c.role = role ∧ c.address = address then some c.granted else lastGrant? changes role address := by
  unfold lastGrant?
  by_cases h : c.role = role ∧ c.address = address <;> simp [h]

def roleChangesOf (events : List Delta) (token : String) : List RoleChange :=
  (events.filterMap Delta.roleChange?).filter (·.token = token)

namespace TokenAccumulator

variable {acc : TokenAccumulator}

def grant? (acc : TokenAccumulator) (role address : String) : Option Bool :=
  (acc.roles.find? role).bind (·.find? address)

/-- The last change of a role for an address is the one that counts. -/
theorem grant?_addRole (acc : TokenAccumulator) (c : RoleChange) (role address : String) :
    (acc.addRole c).grant? role address =
      if c.role = role ∧ c.address = address then some c.granted else acc.grant? role address := by
  unfold grant? addRole
  rw [Dict.find?_alter]
  by_cases hr : c.role = role
  · subst hr
    by_cases ha : c.address = address
    · simp [Dict.find?_insert, ha]
    · cases hf : acc.roles.find? c.role <;> simp [Dict.find?_insert, ha]
  · simp [hr]

theorem roles_addToken (acc : TokenAccumulator) (info : TokenInfo) : (acc.addToken info).roles = acc.roles := by
  unfold addToken describe
  split <;> rfl

end TokenAccumulator

namespace BlockAccumulators

variable {acc : BlockAccumulators} {events : List Delta}

def KeepsGrants (acc : BlockAccumulators) (events : List Delta) : Prop :=
  ∀ token role address, (acc.ofToken token).grant? role address = lastGrant? (roleChangesOf events token) role address

/-- Other deltas change no roles. -/
theorem roles_add {delta : Delta} (h : delta.roleChange? = none) (acc : BlockAccumulators) (token : String) :
    ((acc.add delta).ofToken token).roles = (acc.ofToken token).roles := by
  have other (name : String) {f : TokenAccumulator → TokenAccumulator}
      (hf : ∀ t : TokenAccumulator, (f t).roles = t.roles) :
      ((acc.onToken name f).ofToken token).roles = (acc.ofToken token).roles := by
    rw [ofToken_onToken]
    split
    · next he => rw [hf, he]
    · rfl
  cases delta with
  | role change => cases h
  | token info => exact other _ fun t => t.roles_addToken info
  | properties change => exact other _ fun _ => rfl
  | nftUpdate u =>
    unfold BlockAccumulators.add BlockAccumulators.addUpdate
    dsimp only
    split
    · exact other _ fun _ => rfl
    · exact other _ fun _ => rfl
    · rfl
  | _ => rfl

/-- One delta adds what it says. -/
theorem KeepsGrants.add (h : acc.KeepsGrants events) (delta : Delta) :
    (acc.add delta).KeepsGrants (events ++ [delta]) := by
  intro token role address
  cases hd : delta.roleChange? with
  | none =>
    have hsame : roleChangesOf (events ++ [delta]) token = roleChangesOf events token := by simp [roleChangesOf, hd]
    rw [hsame, ← h token role address, TokenAccumulator.grant?, roles_add hd]
    rfl
  | some c =>
    obtain rfl : delta = .role c := by
      cases delta with
      | role change => exact congrArg Delta.role (Option.some.inj hd)
      | _ => cases hd
    rw [BlockAccumulators.add, ofToken_onToken]
    split
    · next ht =>
      have hmore : roleChangesOf (events ++ [.role c]) token = roleChangesOf events token ++ [c] := by
        simp [roleChangesOf, Delta.roleChange?, ht]
      rw [hmore, lastGrant?_append, TokenAccumulator.grant?_addRole, ht, h token role address]
    · next ht =>
      have hsame : roleChangesOf (events ++ [.role c]) token = roleChangesOf events token := by
        simp [roleChangesOf, Delta.roleChange?, ht]
      rw [hsame]
      exact h token role address

end BlockAccumulators

namespace Registry

variable {r : Registry}

def roleChanges (r : Registry) (pool : Pool) (timestamp : UInt64) (token : String) : List RoleChange :=
  (r.accepted .roles Delta.roleChange? pool timestamp).filter (·.token = token)

/-- What is gathered of a role and an address is what the last accepted event for them says. -/
theorem grant?_processLogs (hr : .roles ∈ r.classifiers) (pool : Pool) (timestamp : UInt64)
    (token role address : String) :
    ((r.processLogs pool timestamp).ofToken token).grant? role address =
      lastGrant? (r.roleChanges pool timestamp token) role address := by
  have start : ({} : BlockAccumulators).KeepsGrants [] := fun _ _ _ => rfl
  have hkeeps := r.processLogs_induction pool timestamp start fun _ _ delta _ h => h.add delta
  rw [hkeeps token role address, roleChangesOf,
    filterMap_deltas_of_source hr (fun _ => Delta.roleChange?_of_source)]
  rfl

end Registry

section Lists

variable {e : ItemEdit} {role other key : String} {old : Option Value} {held : Dict Bool}

def Value.itemsOf (v : Option Value) : List Value := (v.bind Value.items?).getD []

/-- An edit at a path changes what is below the first key of it, and nothing else. -/
theorem ItemEdit.under_below (e : ItemEdit) (first : String) (rest : List String) (old : Option Value) (key : String) :
    Value.under (e.below (first :: rest) old) key =
      if first = key then e.below rest (Value.under old key) else Value.under old key := by
  have happlied (v : Value) : (e.applyAt (first :: rest) v).get? key =
      if first = key then e.below rest (v.get? key) else v.get? key := by
    split
    · next hk => rw [← hk, get?_applyAt_self]
    · next hk => rw [applyAt_cons, Value.get?_update_of_ne hk]
  cases old with
  | some v => exact happlied v
  | none =>
    cases hm : e.makes with
    | true =>
      rw [below, if_pos hm]
      exact happlied .null
    | false => simp [below, hm]

/-- What an edit makes of the items of an array, there or not. -/
theorem ItemEdit.itemsOf_below_nil (he : e.Lawful) (old : Option Value) :
    Value.itemsOf (e.below [] old) = e.onItems (Value.itemsOf old) := by
  have hnone (v : Value) (hv : v.items? = none) : Value.itemsOf (some (e.onArray v)) = e.onItems [] := by
    rw [onArray_of_none hv]
    cases hm : e.makes with
    | true => rfl
    | false => simp [Value.itemsOf, hv, he hm]
  cases old with
  | some v =>
    cases hv : v.items? with
    | some items =>
      rw [below, applyAt, onArray_of_items hv, Value.itemsOf, Value.itemsOf, Option.bind_some, Option.bind_some, hv]
      rfl
    | none =>
      rw [below, applyAt, hnone v hv]
      simp [Value.itemsOf, hv]
  | none =>
    cases hm : e.makes with
    | true =>
      rw [below, if_pos hm, applyAt, hnone .null rfl]
      rfl
    | false => simp [below, hm, Value.itemsOf, he hm]

/-- An edit further down puts an object in the place of an array. -/
theorem ItemEdit.itemsOf_below_cons (e : ItemEdit) (first : String) (rest : List String) (old : Option Value) :
    Value.itemsOf (e.below (first :: rest) old) = if e.makes then [] else Value.itemsOf old := by
  have hnone (v : Value) (hv : v.items? = none) : Value.itemsOf (some (e.applyAt (first :: rest) v)) = [] := by
    rw [Value.itemsOf, Option.bind_some, items?_applyAt_cons e first rest hv]
    rfl
  cases old with
  | some v =>
    cases hv : v.items? with
    | some items =>
      obtain rfl : v = .arr items := by
        cases v with
        | arr found => exact congrArg Value.arr (Option.some.inj hv)
        | _ => cases hv
      rw [below, applyAt_arr]
      split <;> rfl
    | none =>
      rw [below, hnone v hv]
      simp [Value.itemsOf, hv]
  | none =>
    cases hm : e.makes with
    | true =>
      rw [below, if_pos hm, hnone .null rfl]
      rfl
    | false => simp [below, hm]

namespace TokenAccumulator

/-- The addresses that a document lists under the name of a role. -/
def holdersIn (stored : Option Value) (role : String) : List Value :=
  Value.itemsOf (Value.under (Value.under stored "roles") role)

/-- Whether a role is kept in the place of the list of another. -/
def Within (role other : String) : Prop := ∃ rest, other = role ++ "." ++ rest

theorem Within.lt (h : Within role other) : role < other := by
  obtain ⟨rest, rfl⟩ := h
  exact Path.lt_append role rest

/-- The changes of a role's holders are made to the list of the role. -/
theorem itemsOf_under_self (hr : '.' ∉ role.toList) (held : Dict Bool) (old : Option Value) :
    Value.itemsOf (Value.under ((roleEdit held).below (Path.keys role) old) role) =
      held.foldl onHolders (Value.itemsOf (Value.under old role)) := by
  rw [Path.keys_of_not_mem hr, ItemEdit.under_below, if_pos rfl, ItemEdit.itemsOf_below_nil (lawful_roleEdit held)]
  rfl

/-- A grant of a role that is kept in the place of the list takes the list away. -/
theorem itemsOf_under_within (hr : '.' ∉ role.toList) (h : Within role other) (held : Dict Bool)
    (old : Option Value) :
    Value.itemsOf (Value.under ((roleEdit held).below (Path.keys other) old) role) =
      if held.any (·.2) then [] else Value.itemsOf (Value.under old role) := by
  obtain ⟨rest, rfl⟩ := h
  obtain ⟨first, more, hkeys⟩ := List.exists_cons_of_ne_nil (Path.keys_ne_nil rest)
  rw [Path.keys_append hr, ItemEdit.under_below, if_pos rfl, hkeys, ItemEdit.itemsOf_below_cons]
  rfl

/-- Roles that are kept under a name are the role itself and those in its place. -/
theorem head?_keys_eq_some_iff :
    (Path.keys other).head? = some role ↔ '.' ∉ role.toList ∧ (other = role ∨ Within role other) := by
  constructor
  · intro h
    by_cases hdot : '.' ∈ other.toList
    · obtain ⟨first, rest, hfirst, rfl⟩ := Path.eq_append_of_mem hdot
      rw [Path.keys_append hfirst, List.head?_cons, Option.some.injEq] at h
      exact h ▸ ⟨hfirst, .inr ⟨rest, rfl⟩⟩
    · rw [Path.keys_of_not_mem hdot, List.head?_cons, Option.some.injEq] at h
      exact h ▸ ⟨hdot, .inl rfl⟩
  · rintro ⟨hr, rfl | ⟨rest, rfl⟩⟩
    · rw [Path.keys_of_not_mem hr]
      rfl
    · rw [Path.keys_append hr]
      rfl

/-- Changes of roles that are kept under other names leave the list. -/
theorem under_other (h : (Path.keys other).head? ≠ some role) (held : Dict Bool) (old : Option Value) :
    Value.under ((roleEdit held).below (Path.keys other) old) role = Value.under old role := by
  obtain ⟨first, rest, hkeys⟩ := List.exists_cons_of_ne_nil (Path.keys_ne_nil other)
  rw [hkeys, List.head?_cons, Ne, Option.some.injEq] at h
  rw [hkeys, ItemEdit.under_below, if_neg h]

/-- An address holds a role if the block grants it, or if the block says nothing and it held the role before. -/
theorem mem_foldl_onHolders (h : held.Sorted) (items : List Value) (address : String) :
    .str address ∈ held.foldl onHolders items ↔
      held.find? address = some true ∨ held.find? address = none ∧ .str address ∈ items := by
  induction held generalizing items with
  | nil => simp
  | cons e rest ih =>
    obtain ⟨name, granted⟩ := e
    rw [List.foldl_cons, ih (List.pairwise_cons.1 h).2, mem_onHolders, Dict.find?]
    by_cases he : name = address
    · subst he
      simp [h.tail_find?]
    · simp [he]

/-- No list is kept under a name with a dot. -/
theorem under_onRoles_of_mem (hr : '.' ∈ role.toList) (roles : Dict (Dict Bool)) (old : Option Value) :
    Value.under (onRoles roles old) role = Value.under old role := by
  refine List.foldlRecOn (motive := (Value.under · role = Value.under old role)) roles _ rfl fun v hv e _ => ?_
  rw [under_other fun h => (head?_keys_eq_some_iff.1 h).1 hr, hv]

/-- The list of a role has the addresses that the block grants it and those that had it before, unless a role is
granted that is kept in its place. -/
theorem mem_onRoles {roles : Dict (Dict Bool)} (hs : roles.Sorted) (hheld : ∀ e ∈ roles, Dict.Sorted e.2)
    (hr : '.' ∉ role.toList) (old : Option Value) (address : String) :
    .str address ∈ Value.itemsOf (Value.under (onRoles roles old) role) ↔
      (∀ e ∈ roles, Within role e.1 → e.2.any (·.2) = false) ∧
        ((roles.find? role).bind (·.find? address) = some true ∨
          (roles.find? role).bind (·.find? address) = none ∧
            .str address ∈ Value.itemsOf (Value.under old role)) := by
  induction roles generalizing old with
  | nil => simp [onRoles]
  | cons e rest ih =>
    obtain ⟨other, held⟩ := e
    obtain ⟨hbelow, hrest⟩ := List.pairwise_cons.1 hs
    obtain ⟨hsorted, hmore⟩ := List.forall_mem_cons.1 hheld
    have hstep : onRoles ((other, held) :: rest) old = onRoles rest ((roleEdit held).below (Path.keys other) old) := rfl
    rw [hstep, ih hrest hmore, List.forall_mem_cons, Dict.find?]
    by_cases hhead : (Path.keys other).head? = some role
    · rcases (head?_keys_eq_some_iff.1 hhead).2 with rfl | hwithin
      · -- the role itself, which comes before all that are kept in its place
        have hnot : ¬Within other other := fun h => String.lt_irrefl _ h.lt
        rw [itemsOf_under_self hr, mem_foldl_onHolders hsorted, hs.tail_find?]
        simp [hnot]
      · have hne : other ≠ role := fun he => String.lt_irrefl _ (he ▸ hwithin.lt)
        have hnone : Dict.find? rest role = none :=
          Dict.find?_eq_none_of_lt fun e he => String.lt_trans hwithin.lt (hbelow e he)
        rw [itemsOf_under_within hr hwithin, hnone, if_neg hne]
        cases hany : held.any (·.2) <;> simp [hwithin]
    · have hne : other ≠ role := fun he => hhead (head?_keys_eq_some_iff.2 ⟨hr, .inl he⟩)
      have hnot : ¬Within role other := fun h => hhead (head?_keys_eq_some_iff.2 ⟨hr, .inr h⟩)
      rw [under_other hhead, if_neg hne]
      simp [hnot]

/-- The holders of a role after a block, by what its events grant last. -/
theorem mem_holders_onRoles {acc : TokenAccumulator} (h : acc.Ordered) (role address : String) (old : Option Value) :
    .str address ∈ Value.itemsOf (Value.under (onRoles acc.roles old) role) ↔
      if '.' ∈ role.toList then .str address ∈ Value.itemsOf (Value.under old role)
      else (∀ other, Within role other → ∀ holder, acc.grant? other holder ≠ some true) ∧
        (acc.grant? role address = some true ∨
          acc.grant? role address = none ∧ .str address ∈ Value.itemsOf (Value.under old role)) := by
  split
  · next hr => rw [under_onRoles_of_mem hr]
  · next hr =>
    rw [mem_onRoles h.roles h.held hr]
    refine and_congr ?_ Iff.rfl
    constructor
    · intro hnone other hw holder hgrant
      obtain ⟨held, hf, hholder⟩ := Option.bind_eq_some_iff.1 hgrant
      have hany := hnone _ (Dict.mem_of_find? hf) hw
      exact Bool.false_ne_true (hany.symm.trans (List.any_eq_true.2 ⟨_, Dict.mem_of_find? hholder, rfl⟩))
    · intro hnone e he hw
      refine List.any_eq_false.2 fun ⟨holder, granted⟩ hm hgranted => hnone e.1 hw holder ?_
      rw [grant?, h.roles.find?_of_mem he, Option.bind_some, (h.held e he).find?_of_mem hm]
      exact congrArg some hgranted

theorem mem_onHolders_of_not_text {w : Value} (hw : w.text? = none) (items : List Value) (e : String × Bool) :
    w ∈ onHolders items e ↔ w ∈ items := by
  have hne : w ≠ .str e.1 := by
    rintro rfl
    cases hw
  have hsame : w.same (.str e.1) = false := Bool.eq_false_iff.2 fun hs => hne (Value.same_str_iff.1 hs)
  unfold onHolders Value.addItem
  split
  · split
    · rfl
    · simp [hne]
  · simp [hsame]

/-- Changes of roles are about addresses alone. -/
theorem mem_onRoles_of_not_text {roles : Dict (Dict Bool)} (hdot : ∀ e ∈ roles, '.' ∉ e.1.toList) {w : Value}
    (hw : w.text? = none) (role : String) (old : Option Value) :
    w ∈ Value.itemsOf (Value.under (onRoles roles old) role) ↔ w ∈ Value.itemsOf (Value.under old role) := by
  refine List.foldlRecOn
    (motive := fun v => w ∈ Value.itemsOf (Value.under v role) ↔ w ∈ Value.itemsOf (Value.under old role)) roles _ .rfl
    fun v hv e he => ?_
  obtain ⟨other, held⟩ := e
  have hother : '.' ∉ other.toList := hdot _ he
  by_cases hrole : other = role
  · subst hrole
    rw [itemsOf_under_self hother, ← hv]
    exact List.foldlRecOn (motive := fun items => w ∈ items ↔ w ∈ Value.itemsOf (Value.under v other)) held _ .rfl
      fun items hi e _ => (mem_onHolders_of_not_text hw items e).trans hi
  · have hhead : (Path.keys other).head? ≠ some role := by
      rw [Path.keys_of_not_mem hother]
      simpa using hrole
    rw [under_other hhead, hv]

theorem grant?_of_dot {acc : TokenAccumulator} (h : ∀ e ∈ acc.roles, '.' ∉ e.1.toList) (hr : '.' ∈ role.toList)
    (address : String) : acc.grant? role address = none := by
  have hnone : acc.roles.find? role = none := by
    cases hf : acc.roles.find? role with
    | none => rfl
    | some held => exact absurd hr (h _ (Dict.mem_of_find? hf))
  rw [grant?, hnone]
  rfl

end TokenAccumulator

end Lists
end ChainIndex
