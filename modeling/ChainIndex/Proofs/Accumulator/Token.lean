import ChainIndex.Accumulator.Token
import ChainIndex.Proofs.Accumulator.Delegator
import ChainIndex.Proofs.Document.Overlay
import ChainIndex.Proofs.Write.Paths

/-!
The changes of tokens. Roles are kept at paths that may run through one another, so a grant can take the
place of the roles below it; whatever the roles, granting them again in the same order changes nothing.
-/
namespace ChainIndex
namespace TokenAccumulator

variable {acc : TokenAccumulator} {token : String}

structure Ordered (acc : TokenAccumulator) : Prop where
  roles : acc.roles.Sorted
  held : ∀ e ∈ acc.roles, Dict.Sorted e.2
  properties : acc.properties.Sorted

theorem ordered_empty : ({} : TokenAccumulator).Ordered := ⟨List.Pairwise.nil, nofun, List.Pairwise.nil⟩

theorem Ordered.addToken (h : acc.Ordered) (info : TokenInfo) : (acc.addToken info).Ordered := by
  unfold TokenAccumulator.addToken
  split
  · exact ⟨h.roles, h.held, h.properties⟩
  · exact ⟨h.roles, h.held, h.properties⟩
  · exact ⟨h.roles, h.held, h.properties⟩

theorem Ordered.addRole (h : acc.Ordered) (change : RoleChange) : (acc.addRole change).Ordered := by
  refine ⟨Dict.Sorted.insert h.roles change.role _, fun e he => ?_, h.properties⟩
  rcases Dict.eq_or_mem_of_mem_insert he with rfl | he
  · refine Dict.Sorted.insert ?_ change.address _
    cases hf : acc.roles.find? change.role with
    | none => exact List.Pairwise.nil
    | some held => exact h.held _ (Dict.mem_of_find? hf)
  · exact h.held e he

theorem Ordered.addProperties (h : acc.Ordered) (change : PropertiesChange) :
    (acc.addProperties change).Ordered :=
  ⟨h.roles, h.held, h.properties.extend change.properties⟩

theorem Ordered.setPaused (h : acc.Ordered) (paused : Bool) : (acc.setPaused paused).Ordered :=
  ⟨h.roles, h.held, h.properties⟩

section Roles

def onHolders (items : List Value) (e : String × Bool) : List Value :=
  if e.2 then Value.addItem items (.str e.1) else items.filter fun item => !item.same (.str e.1)

def roleEdit (held : Dict Bool) : ItemEdit where
  makes := held.any (·.2)
  onItems items := held.foldl onHolders items

theorem isAmong_str_iff {text : String} {items : List Value} :
    (Value.str text).isAmong items = true ↔ .str text ∈ items := by
  simp [Value.isAmong, Value.same_str_left]

/-- An address is settled once it is, or is not, among the holders as told. -/
theorem onHolders_eq_self_iff {items : List Value} {e : String × Bool} :
    onHolders items e = items ↔ (.str e.1 ∈ items ↔ e.2 = true) := by
  obtain ⟨address, granted⟩ := e
  cases granted with
  | true =>
    simp only [onHolders, ↓reduceIte, iff_true, Value.addItem]
    split
    · next h => simp [isAmong_str_iff.1 h]
    · next h => simp [mt isAmong_str_iff.2 h]
  | false =>
    simp only [onHolders, Bool.false_eq_true, ↓reduceIte, iff_false, List.filter_eq_self, Bool.not_eq_true']
    constructor
    · intro h hm
      have hsame := h _ hm
      rw [Value.same_refl] at hsame
      cases hsame
    · intro h item hi
      refine Bool.eq_false_iff.2 fun hs => h ?_
      rw [← Value.same_str_iff.1 hs]
      exact hi

theorem mem_onHolders {items : List Value} {e : String × Bool} {address : String} :
    .str address ∈ onHolders items e ↔
      if e.1 = address then e.2 = true else .str address ∈ items := by
  obtain ⟨other, granted⟩ := e
  cases granted with
  | true =>
    simp only [onHolders, ↓reduceIte, Value.addItem]
    by_cases he : other = address
    · subst he
      split
      · next h => simp [isAmong_str_iff.1 h]
      · simp
    · split
      · simp
      · simp [Ne.symm he]
  | false =>
    simp only [onHolders, Bool.false_eq_true, ↓reduceIte, List.mem_filter, Bool.not_eq_true']
    by_cases he : other = address
    · subst he
      simp [Value.same_refl]
    · have hsame : (Value.str address).same (.str other) = false :=
        Bool.eq_false_iff.2 fun hs => he (Value.str.inj (Value.same_str_iff.1 hs)).symm
      simp [he, hsame]

/-- Grants and withdrawals of a role, made again, change nothing. -/
theorem onItems_roleEdit_twice {held : Dict Bool} (h : held.Sorted) (items : List Value) :
    (roleEdit held).onItems ((roleEdit held).onItems items) = (roleEdit held).onItems items := by
  refine Steps.foldl_foldl_of_kept (fun e _ s => ?_) (fun e he d hd s hs => ?_) items
  · rw [onHolders_eq_self_iff, mem_onHolders, if_pos rfl]
  · rw [onHolders_eq_self_iff] at hs ⊢
    rw [mem_onHolders]
    by_cases hk : d.1 = e.1
    · obtain ⟨address, granted⟩ := e
      obtain ⟨other, allowed⟩ := d
      obtain rfl : other = address := hk
      have hfirst := h.find?_of_mem he
      rw [h.find?_of_mem hd] at hfirst
      rw [if_pos rfl, Option.some.inj hfirst]
    · rw [if_neg hk]
      exact hs

theorem lawful_roleEdit (held : Dict Bool) : (roleEdit held).Lawful := by
  intro hm
  refine Steps.foldl_eq_self fun e he => ?_
  have hnot : e.2 = false := by
    have := List.any_eq_false.1 hm e he
    simpa using this
  simp [onHolders, hnot]

theorem ordered_roleEdit (held : Dict Bool) : (roleEdit held).Ordered := by
  intro items hi
  refine List.foldlRecOn (motive := fun found => ∀ w ∈ found, Value.Ordered w) held onHolders hi
    fun found hf e _ w hw => ?_
  unfold onHolders at hw
  split at hw
  · unfold Value.addItem at hw
    split at hw
    · exact hf w hw
    · rcases List.mem_append.1 hw with hw | hw
      · exact hf w hw
      · exact List.mem_singleton.1 hw ▸ trivial
  · exact hf w (List.mem_filter.1 hw).1

theorem roleEdit_cons (e : String × Bool) (rest : Dict Bool) :
    roleEdit (e :: rest) = (roleEdit [e]).andThen (roleEdit rest) := by
  simp [roleEdit, ItemEdit.andThen, Function.comp_def]

/-- A grant is an edit of the array at the role's name. -/
theorem get?_setRole (role : String) (e : String × Bool) (doc : Value) :
    ((Mutation.setRole role e.1 e.2).apply doc).get? "roles" =
      (roleEdit [e]).below (Path.keys role) (doc.get? "roles") := by
  obtain ⟨address, granted⟩ := e
  rw [← ItemEdit.get?_applyAt_self]
  cases granted with
  | true =>
    have hedit : (roleEdit [(address, true)]).onArray = Value.addEach [.str address] := by
      funext v
      cases hi : v.items? <;> simp [ItemEdit.onArray, hi, roleEdit, onHolders, Value.addEach_eq]
    rw [ItemEdit.applyAt_of_makes rfl, hedit, ← Path.keys_rolePath]
    rfl
  | false =>
    have hedit : (roleEdit [(address, false)]).onArray = Value.dropEqual (.str address) := by
      funext v
      cases v <;> rfl
    rw [ItemEdit.applyAt_of_not_makes rfl, hedit, ← Path.keys_rolePath]
    rfl

/-- The changes of one role, as one edit of the array at the role's name. -/
theorem get?_setRoles (role : String) (held : Dict Bool) {doc : Value} (hd : doc.IsDocument) :
    (Mutation.applyAll (held.map fun e => .setRole role e.1 e.2) doc).get? "roles" =
      (roleEdit held).below (Path.keys role) (doc.get? "roles") := by
  induction held generalizing doc with
  | nil => exact (ItemEdit.below_eq_self rfl (fun _ => rfl) _ fun w hw => hd.ordered.get? hw).symm
  | cons e rest ih =>
    have hset : (Mutation.setRole role e.1 e.2).Ordered := trivial
    rw [List.map_cons, Mutation.applyAll_cons, ih (hset.apply hd), get?_setRole, roleEdit_cons e rest,
      ItemEdit.below_andThen (lawful_roleEdit [e])]

def onRoles (roles : Dict (Dict Bool)) (old : Option Value) : Option Value :=
  roles.foldl (fun old e => (roleEdit e.2).below (Path.keys e.1) old) old

/-- Each role is edited at its own name, one after the other. -/
theorem get?_roleMutations {doc : Value} (hd : doc.IsDocument) :
    (Mutation.applyAll acc.roleMutations doc).get? "roles" = onRoles acc.roles (doc.get? "roles") := by
  unfold roleMutations onRoles
  generalize acc.roles = roles
  induction roles generalizing doc with
  | nil => rfl
  | cons e rest ih =>
    have hset : ∀ m ∈ e.2.map fun h => Mutation.setRole e.1 h.1 h.2, m.Ordered := by
      intro m hm
      obtain ⟨h, -, rfl⟩ := List.mem_map.1 hm
      trivial
    rw [List.flatMap_cons, Mutation.applyAll_append, ih (Mutation.isDocument_applyAll hset hd),
      get?_setRoles e.1 e.2 hd, List.foldl_cons]

/-- All changes of roles, made again, change nothing. -/
theorem onRoles_twice (h : acc.Ordered) {old : Option Value} (hold : ∀ w, old = some w → w.Ordered) :
    onRoles acc.roles (onRoles acc.roles old) = onRoles acc.roles old := by
  have htwice (e : String × Dict Bool) (he : e ∈ acc.roles) := onItems_roleEdit_twice (h.held e he)
  refine Steps.foldl_foldl_of_regular (P := fun old => ∀ w, old = some w → Value.Ordered w)
    (fun e _ s hs => (ordered_roleEdit e.2).below _ hs)
    (fun e he s _ => ItemEdit.below_below (htwice e he) _ s) (fun e he d hd s hs => ?_) hold
  by_cases hk : e.1 = d.1
  · obtain ⟨role, held⟩ := e
    obtain ⟨other, held'⟩ := d
    obtain rfl : role = other := hk
    have hfirst := h.roles.find?_of_mem he
    rw [h.roles.find?_of_mem hd] at hfirst
    obtain rfl := Option.some.inj hfirst
    rw [ItemEdit.below_below (htwice _ he)]
  · exact ItemEdit.below_regular (htwice e he) (roleEdit d.2) (fun same => hk (Path.keys_injective same)) hs

end Roles

section Fields

variable {key : String}

def staticFields : List String := ["token", "name", "ticker", "type", "numDecimals"]

def allMutations (token : String) (acc : TokenAccumulator) : List Mutation :=
  acc.mutations token ++ acc.paused.toList.map fun paused => .merge (.record [("paused", .bool paused)])

def mainMutations (token : String) (acc : TokenAccumulator) : List Mutation :=
  acc.staticMutations token ++ acc.issueMutations ++ acc.ownerMutations token ++
    if acc.changeToDynamic then [.merge (.record [("changedToDynamic", .bool true)])] else []

def pauseMutations (acc : TokenAccumulator) : List Mutation :=
  acc.paused.toList.map fun paused => .merge (.record [("paused", .bool paused)])

theorem allMutations_eq (token : String) (acc : TokenAccumulator) :
    acc.allMutations token =
      acc.mainMutations token ++ acc.roleMutations ++ acc.propertyMutations ++ acc.pauseMutations := rfl

theorem keys_ownersHistory : Path.keys "ownersHistory" = ["ownersHistory"] := rfl

theorem ordered_toValue_ownerData (o : OwnerData) : o.toJson.toValue.Ordered := Json.ordered_toValue _

def staticEntries (token : String) (s : TokenStatic) : List (String × Value) :=
  [("token", .str token), ("name", .str s.name), ("ticker", .str s.ticker), ("type", .str s.type)] ++
    decimalsField s.decimals

theorem staticMutations_of_some {s : TokenStatic} (h : acc.static = some s) :
    acc.staticMutations token = [.merge (.record (staticEntries token s))] := by
  rw [staticMutations, h]
  rfl

theorem plain_staticEntries (token : String) (s : TokenStatic) :
    ∀ e ∈ staticEntries token s, e.2.fields? = none ∧ e.2.Ordered := by
  cases hd : s.decimals <;> simp [staticEntries, hd, decimalsField]

theorem simple_staticMutations : ∀ m ∈ acc.staticMutations token,
    m.Simple ∧ ∀ key, key ∉ staticFields → m.Avoids key := by
  intro m hm
  cases hs : acc.static with
  | some s =>
    rw [staticMutations_of_some hs] at hm
    rw [List.mem_singleton.1 hm]
    have hplain := plain_staticEntries token s
    have hkeys : Dict.keys (staticEntries token s) ⊆ staticFields := by
      cases hd : s.decimals <;> simp [staticEntries, hd, decimalsField, Dict.keys, staticFields]
    exact ⟨Mutation.simple_merge (fun e he => (hplain e he).1) fun e he => (hplain e he).2, fun key hk =>
      Mutation.avoids_merge (fun e he => (hplain e he).1) fun h => hk (hkeys h)⟩
  | none =>
    rw [staticMutations, hs] at hm
    cases hm

theorem simple_issueMutations : ∀ m ∈ acc.issueMutations,
    m.Simple ∧ ∀ key, key ∉ ["issuer", "currentOwner", "timestamp"] → m.Avoids key := by
  intro m hm
  unfold issueMutations at hm
  split at hm
  · next issuer _ =>
    rw [List.mem_singleton.1 hm]
    refine ⟨Mutation.simple_mergeIfAbsent ?_, fun key hk => Mutation.avoids_mergeIfAbsent fun h => hk ?_⟩
    · cases acc.initialOwner <;> cases acc.issuedAt <;> simp
    · cases ho : acc.initialOwner <;> cases ht : acc.issuedAt <;> simp [ho, ht, Dict.keys] at h ⊢ <;> tauto
  · cases hm

theorem simple_ownerMutations : ∀ m ∈ acc.ownerMutations token,
    m.Simple ∧ ∀ key, key ∉ ["token", "currentOwner", "ownersHistory"] → m.Avoids key := by
  intro m hm
  rcases List.mem_append.1 hm with hm | hm
  · obtain ⟨owner, -, rfl⟩ := List.mem_map.1 hm
    refine ⟨Mutation.simple_merge (by simp) (by simp), fun key hk => Mutation.avoids_merge (by simp) fun h => hk ?_⟩
    simp [Dict.keys] at h ⊢
    tauto
  · split at hm
    · cases hm
    · rw [List.mem_singleton.1 hm]
      refine ⟨Mutation.simple_addToSet keys_ownersHistory fun v hv => ?_, fun key hk =>
        Mutation.avoids_addToSet keys_ownersHistory (fun he => hk (by simp [← he])) _⟩
      obtain ⟨o, -, rfl⟩ := List.mem_map.1 hv
      exact ordered_toValue_ownerData o

theorem simple_pauseMutations : ∀ m ∈ acc.pauseMutations,
    m.Simple ∧ ∀ key, key ≠ "paused" → m.Avoids key := by
  intro m hm
  obtain ⟨paused, -, rfl⟩ := List.mem_map.1 hm
  exact ⟨Mutation.simple_merge (by simp) (by simp), fun key hk => Mutation.avoids_merge_singleton (Ne.symm hk) _⟩

def mainFields : List String :=
  staticFields ++ ["issuer", "currentOwner", "timestamp", "ownersHistory", "changedToDynamic"]

/-- Roles, properties and a pause apart, every change sets fields as a whole or adds to an array. -/
theorem simple_mainMutations : ∀ m ∈ acc.mainMutations token,
    m.Simple ∧ ∀ key, key ∉ mainFields → m.Avoids key := by
  intro m hm
  simp only [mainMutations, List.mem_append] at hm
  have hmore : ∀ key, key ∉ mainFields → key ∉ staticFields ∧
      key ∉ ["issuer", "currentOwner", "timestamp"] ∧ key ∉ ["token", "currentOwner", "ownersHistory"] ∧
      "changedToDynamic" ≠ key := by
    intro key hk
    simp only [mainFields, staticFields, List.mem_append, List.mem_cons, List.not_mem_nil, or_false, not_or] at hk ⊢
    tauto
  rcases hm with ((hm | hm) | hm) | hm
  · exact ⟨(simple_staticMutations m hm).1, fun key hk => (simple_staticMutations m hm).2 key (hmore key hk).1⟩
  · exact ⟨(simple_issueMutations m hm).1, fun key hk => (simple_issueMutations m hm).2 key (hmore key hk).2.1⟩
  · exact ⟨(simple_ownerMutations m hm).1, fun key hk => (simple_ownerMutations m hm).2 key (hmore key hk).2.2.1⟩
  · split at hm
    · rw [List.mem_singleton.1 hm]
      exact ⟨Mutation.simple_merge (by simp) (by simp), fun key hk =>
        Mutation.avoids_merge_singleton (hmore key hk).2.2.2 _⟩
    · cases hm

theorem avoids_roleMutations (hk : "roles" ≠ key) : ∀ m ∈ acc.roleMutations, m.Avoids key := by
  intro m hm
  obtain ⟨⟨role, held⟩, -, hm⟩ := List.mem_flatMap.1 hm
  obtain ⟨⟨address, granted⟩, -, rfl⟩ := List.mem_map.1 hm
  intro doc
  unfold Mutation.apply
  simp only [Path.keys_rolePath]
  split
  · exact Value.get?_writeAt_of_ne _ hk _ doc
  · exact Value.get?_adjustAt_of_ne _ hk _ doc

theorem ordered_roleMutations : ∀ m ∈ acc.roleMutations, m.Ordered := by
  intro m hm
  obtain ⟨⟨role, held⟩, -, hm⟩ := List.mem_flatMap.1 hm
  obtain ⟨⟨address, granted⟩, -, rfl⟩ := List.mem_map.1 hm
  trivial

def propertiesValue (acc : TokenAccumulator) : Value := .obj (acc.properties.map fun e => (e.1, .bool e.2))

theorem propertyMutations_eq (acc : TokenAccumulator) :
    acc.propertyMutations =
      if acc.properties.isEmpty then [] else [.merge (.record [("properties", acc.propertiesValue)])] := rfl

theorem Ordered.propertiesValue (h : acc.Ordered) :
    acc.propertiesValue.IsFlat ∧ acc.propertiesValue.IsDocument := by
  have hmap : ∀ e ∈ acc.properties.map fun e => (e.1, Value.bool e.2), e.2.fields? = none ∧ e.2.Ordered := by
    intro e he
    obtain ⟨p, -, rfl⟩ := List.mem_map.1 he
    exact ⟨rfl, trivial⟩
  have hsorted : Dict.Sorted (acc.properties.map fun e => (e.1, Value.bool e.2)) :=
    Dict.Sorted.map h.properties fun _ b => Value.bool b
  refine ⟨⟨⟨_, rfl, hsorted⟩, fun key w hw => ?_⟩, ?_⟩
  · exact (hmap (key, w) (Dict.mem_of_find? hw)).1
  · exact Value.isDocument_obj hsorted (Value.fieldsOrdered_iff.2 fun e he => (hmap e he).2)

theorem avoids_propertyMutations (hk : "properties" ≠ key) : ∀ m ∈ acc.propertyMutations, m.Avoids key := by
  intro m hm
  rw [propertyMutations_eq] at hm
  split at hm
  · cases hm
  · rw [List.mem_singleton.1 hm]
    exact Mutation.avoids_merge_singleton hk _

theorem Ordered.propertyMutations (h : acc.Ordered) : ∀ m ∈ acc.propertyMutations, m.Ordered := by
  intro m hm
  rw [propertyMutations_eq] at hm
  split at hm
  · cases hm
  · rw [List.mem_singleton.1 hm]
    exact Value.isDocument_record (List.forall_mem_singleton.2 h.propertiesValue.2.ordered)

theorem Ordered.allMutations (h : acc.Ordered) (token : String) : ∀ m ∈ acc.allMutations token, m.Ordered := by
  intro m hm
  simp only [allMutations_eq, List.mem_append] at hm
  rcases hm with ((hm | hm) | hm) | hm
  · exact (simple_mainMutations m hm).1.ordered
  · exact ordered_roleMutations m hm
  · exact h.propertyMutations m hm
  · exact (simple_pauseMutations m hm).1.ordered

/-- Nothing else that a block writes to a token touches the roles. -/
theorem get?_allMutations_roles {doc : Value} (hd : doc.IsDocument) :
    (Mutation.applyAll (acc.allMutations token) doc).get? "roles" = onRoles acc.roles (doc.get? "roles") := by
  have hmain : ∀ m ∈ acc.mainMutations token, m.Avoids "roles" := fun m hm =>
    (simple_mainMutations m hm).2 _ (by decide)
  have hordered : ∀ m ∈ acc.mainMutations token, m.Ordered := fun m hm => (simple_mainMutations m hm).1.ordered
  have hpause : ∀ m ∈ acc.pauseMutations, m.Avoids "roles" := fun m hm =>
    (simple_pauseMutations m hm).2 _ (by decide)
  rw [allMutations_eq, Mutation.applyAll_append, Mutation.applyAll_append, Mutation.applyAll_append,
    Mutation.get?_applyAll_of_avoids hpause, Mutation.get?_applyAll_of_avoids (avoids_propertyMutations (by decide)),
    get?_roleMutations (Mutation.isDocument_applyAll hordered hd), Mutation.get?_applyAll_of_avoids hmain]

def onProperties (acc : TokenAccumulator) (old : Option Value) : Option Value :=
  if acc.properties.isEmpty then old
  else some ((old.map acc.propertiesValue.merge).getD acc.propertiesValue)

/-- Nothing else that a block writes to a token touches the properties. -/
theorem get?_allMutations_properties (doc : Value) :
    (Mutation.applyAll (acc.allMutations token) doc).get? "properties" =
      acc.onProperties (doc.get? "properties") := by
  have hmain : ∀ m ∈ acc.mainMutations token, m.Avoids "properties" := fun m hm =>
    (simple_mainMutations m hm).2 _ (by decide)
  have hpause : ∀ m ∈ acc.pauseMutations, m.Avoids "properties" := fun m hm =>
    (simple_pauseMutations m hm).2 _ (by decide)
  have hbefore : (Mutation.applyAll (acc.mainMutations token ++ acc.roleMutations) doc).get? "properties" =
      doc.get? "properties" := by
    rw [Mutation.applyAll_append, Mutation.get?_applyAll_of_avoids (avoids_roleMutations (by decide)),
      Mutation.get?_applyAll_of_avoids hmain]
  rw [allMutations_eq, Mutation.applyAll_append, Mutation.applyAll_append,
    Mutation.get?_applyAll_of_avoids hpause, propertyMutations_eq, onProperties, ← hbefore]
  split
  · rfl
  · rw [Mutation.applyAll_cons, Mutation.applyAll_nil, Mutation.get?_merge_singleton, if_pos rfl]
    rfl

theorem onProperties_twice (h : acc.Ordered) (old : Option Value) :
    acc.onProperties (acc.onProperties old) = acc.onProperties old := by
  unfold onProperties
  split
  · rfl
  · exact congrArg some (h.propertiesValue.2.ordered.mergesOnce.overlay_overlay old)

/-- The changes of a token, made again, change nothing more. -/
theorem Ordered.settle (h : acc.Ordered) (token : String) : Mutation.Settle (acc.allMutations token) := by
  intro doc hd
  refine Mutation.applyAll_twice (h.allMutations token) hd fun key => ?_
  have honce := Mutation.isDocument_applyAll (h.allMutations token) hd
  by_cases hr : "roles" = key
  · subst hr
    rw [get?_allMutations_roles honce, get?_allMutations_roles hd, onRoles_twice h fun w hw => hd.ordered.get? hw]
  · by_cases hp : "properties" = key
    · subst hp
      rw [get?_allMutations_properties, get?_allMutations_properties, onProperties_twice h]
    · refine Mutation.get?_applyAll_twice (fun m hm => ?_) doc
      simp only [allMutations_eq, List.mem_append] at hm
      rcases hm with ((hm | hm) | hm) | hm
      · exact (simple_mainMutations m hm).1.touches key
      · exact ⟨_, (avoids_roleMutations hr m hm).touches⟩
      · exact ⟨_, (avoids_propertyMutations hp m hm).touches⟩
      · exact (simple_pauseMutations m hm).1.touches key

/-- A token has no other fields. -/
theorem avoids_allMutations (hk : key ∉ mainFields ++ ["roles", "properties", "paused"]) :
    ∀ m ∈ acc.allMutations token, m.Avoids key := by
  intro m hm
  simp only [List.mem_append, List.mem_cons, List.not_mem_nil, or_false, not_or] at hk
  simp only [allMutations_eq, List.mem_append] at hm
  rcases hm with ((hm | hm) | hm) | hm
  · exact (simple_mainMutations m hm).2 key hk.1
  · exact avoids_roleMutations (Ne.symm hk.2.1) m hm
  · exact avoids_propertyMutations (Ne.symm hk.2.2.1) m hm
  · exact (simple_pauseMutations m hm).2 key hk.2.2.2

def lastMutations (acc : TokenAccumulator) : List Mutation :=
  (if acc.changeToDynamic then [.merge (.record [("changedToDynamic", .bool true)])] else []) ++
    acc.roleMutations ++ acc.propertyMutations ++ acc.pauseMutations

theorem avoids_lastMutations (hk : key ∉ ["changedToDynamic", "roles", "properties", "paused"]) :
    ∀ m ∈ acc.lastMutations, m.Avoids key := by
  simp only [List.mem_cons, List.not_mem_nil, or_false, not_or] at hk
  obtain ⟨hdynamic, hroles, hproperties, hpaused⟩ := hk
  intro m hm
  simp only [lastMutations, List.mem_append] at hm
  rcases hm with ((hm | hm) | hm) | hm
  · split at hm
    · rw [List.mem_singleton.1 hm]
      exact Mutation.avoids_merge_singleton (Ne.symm hdynamic) _
    · cases hm
  · exact avoids_roleMutations (Ne.symm hroles) m hm
  · exact avoids_propertyMutations (Ne.symm hproperties) m hm
  · exact (simple_pauseMutations m hm).2 key hpaused

def restMutations (token : String) (acc : TokenAccumulator) : List Mutation :=
  acc.issueMutations ++ acc.ownerMutations token ++
    (if acc.changeToDynamic then [.merge (.record [("changedToDynamic", .bool true)])] else []) ++
    acc.roleMutations ++ acc.propertyMutations ++ acc.pauseMutations

theorem allMutations_eq_static_append (token : String) (acc : TokenAccumulator) :
    acc.allMutations token = acc.staticMutations token ++ acc.restMutations token := by
  simp only [allMutations_eq, mainMutations, restMutations, List.append_assoc]

theorem restMutations_eq (token : String) (acc : TokenAccumulator) :
    acc.restMutations token = acc.issueMutations ++ acc.ownerMutations token ++ acc.lastMutations := by
  simp only [restMutations, lastMutations, List.append_assoc]

theorem avoids_restMutations (hk : key ∈ ["type", "ticker", "numDecimals"]) :
    ∀ m ∈ acc.restMutations token, m.Avoids key := by
  intro m hm
  simp only [List.mem_cons, List.not_mem_nil, or_false] at hk
  simp only [restMutations_eq, List.mem_append] at hm
  rcases hm with (hm | hm) | hm
  · exact (simple_issueMutations m hm).2 key (by rcases hk with rfl | rfl | rfl <;> decide)
  · exact (simple_ownerMutations m hm).2 key (by rcases hk with rfl | rfl | rfl <;> decide)
  · exact avoids_lastMutations (by rcases hk with rfl | rfl | rfl <;> decide) m hm

/-- Without a type from the block the fields that its tokens take from a collection stay. -/
theorem avoids_allMutations_of_untyped (hs : acc.static = none) (hk : key ∈ ["type", "ticker", "numDecimals"]) :
    ∀ m ∈ acc.allMutations token, m.Avoids key := by
  have hnone : acc.staticMutations token = [] := by rw [staticMutations, hs]
  rw [allMutations_eq_static_append, hnone]
  exact avoids_restMutations hk

theorem get?_mergeEach {α : Type} {patch : α → Value} (hflat : ∀ x, (patch x).IsFlat) (told : Option α) (doc : Value)
    (key : String) :
    (Mutation.applyAll (told.toList.map fun x => .merge (patch x)) doc).get? key =
      (told.bind fun x => (patch x).get? key).or (doc.get? key) := by
  cases told with
  | none => rfl
  | some x => exact Value.get?_merge (hflat x) doc key

/-- The fields of a type and its names, one by one. -/
theorem get?_staticEntries (token : String) (s : TokenStatic) (key : String) :
    (Value.record (staticEntries token s)).get? key =
      match key with
      | "token" => some (.str token)
      | "name" => some (.str s.name)
      | "ticker" => some (.str s.ticker)
      | "type" => some (.str s.type)
      | "numDecimals" => s.decimals.map .nat
      | _ => none := by
  rw [Value.get?_record]
  cases hd : s.decimals with
  | none =>
    simp only [staticEntries, hd, decimalsField]
    split <;> simp_all [Dict.find?, eq_comm]
  | some n =>
    simp only [staticEntries, hd, decimalsField]
    split <;> simp_all [Dict.find?, eq_comm]

/-- An issue or a change of the type replaces what is stored, in the fields that it has. -/
theorem get?_staticMutations (token : String) (acc : TokenAccumulator) (doc : Value) (key : String) :
    (Mutation.applyAll (acc.staticMutations token) doc).get? key =
      (acc.static.bind fun s => (Value.record (staticEntries token s)).get? key).or (doc.get? key) := by
  have hflat (s : TokenStatic) : (Value.record (staticEntries token s)).IsFlat :=
    Value.isFlat_record fun e he => (plain_staticEntries token s e he).1
  have heach : acc.staticMutations token = acc.static.toList.map fun s => .merge (.record (staticEntries token s)) := by
    unfold staticMutations
    cases acc.static <;> rfl
  rw [heach, get?_mergeEach hflat]

theorem get?_ownerMutations (hk : "ownersHistory" ≠ key) (token : String) (acc : TokenAccumulator) (doc : Value) :
    (Mutation.applyAll (acc.ownerMutations token) doc).get? key =
      (acc.currentOwner.bind fun owner =>
        (Value.record [("token", .str token), ("currentOwner", .str owner)]).get? key).or (doc.get? key) := by
  have hhistory : ∀ m ∈ (if acc.ownersHistory.isEmpty then []
      else [Mutation.addToSet "ownersHistory" (acc.ownersHistory.map fun o => o.toJson.toValue)]), m.Avoids key := by
    intro m hm
    split at hm
    · cases hm
    · rw [List.mem_singleton.1 hm]
      exact Mutation.avoids_addToSet keys_ownersHistory hk _
  have hflat (owner : String) : (Value.record [("token", .str token), ("currentOwner", .str owner)]).IsFlat :=
    Value.isFlat_record (by simp)
  rw [ownerMutations, Mutation.applyAll_append, Mutation.get?_applyAll_of_avoids hhistory, get?_mergeEach hflat]

theorem get?_lastMutations (hroles : "roles" ≠ key) (hproperties : "properties" ≠ key) (acc : TokenAccumulator)
    (doc : Value) :
    (Mutation.applyAll acc.lastMutations doc).get? key =
      (acc.paused.bind fun paused => (Value.record [("paused", .bool paused)]).get? key).or
        ((if acc.changeToDynamic then (Value.record [("changedToDynamic", .bool true)]).get? key else none).or
          (doc.get? key)) := by
  have hflat (name : String) (on : Bool) : (Value.record [(name, .bool on)]).IsFlat :=
    Value.isFlat_record_singleton name (.bool on) rfl
  rw [lastMutations, Mutation.applyAll_append, Mutation.applyAll_append, Mutation.applyAll_append, pauseMutations,
    get?_mergeEach (hflat "paused"), Mutation.get?_applyAll_of_avoids (avoids_propertyMutations hproperties),
    Mutation.get?_applyAll_of_avoids (avoids_roleMutations hroles)]
  congr 1
  cases acc.changeToDynamic with
  | true => exact Value.get?_merge (hflat "changedToDynamic" true) doc key
  | false => rfl

/-- With a type from the block the token has it. -/
theorem get?_allMutations_type {static : TokenStatic} (hs : acc.static = some static) (doc : Value) :
    (Mutation.applyAll (acc.allMutations token) doc).get? "type" = some (.str static.type) := by
  rw [allMutations_eq_static_append, Mutation.applyAll_append,
    Mutation.get?_applyAll_of_avoids (avoids_restMutations (by decide)), get?_staticMutations, hs, Option.bind_some,
    get?_staticEntries]
  rfl

end Fields

section Write

/-- A change other than a pause makes a document. -/
theorem write?_of_mutations (hms : acc.mutations token ≠ []) :
    acc.write? token = some ⟨token, .upsert (acc.allMutations token)⟩ := by
  unfold write? allMutations
  dsimp only
  split
  · next h _ => exact absurd h hms
  · next h _ => exact absurd h hms
  · rfl

/-- A token that the block describes gets a document. -/
theorem write?_of_static {static : TokenStatic} (hs : acc.static = some static) :
    acc.write? token = some ⟨token, .upsert (acc.allMutations token)⟩ :=
  write?_of_mutations (by simp [mutations, staticMutations_of_some hs])

/-- The one write of a token makes its changes, or makes them where the token is stored. -/
theorem write?_cases {item : WriteItem} (h : acc.write? token = some item) :
    item.id = token ∧
      (item.action = .upsert (acc.allMutations token) ∨ item.action = .update (acc.allMutations token)) := by
  unfold write? at h
  unfold allMutations
  dsimp only at h
  split at h
  · cases h
  · next hms _ =>
    obtain rfl := Option.some.inj h
    rw [hms]
    exact ⟨rfl, .inr rfl⟩
  · obtain rfl := Option.some.inj h
    exact ⟨rfl, .inl rfl⟩

/-- There is no write only where there are no changes. -/
theorem allMutations_of_write?_eq_none (h : acc.write? token = none) : acc.allMutations token = [] := by
  unfold write? at h
  unfold allMutations
  dsimp only at h
  split at h
  · next hms hpause =>
    rw [hms, hpause]
    rfl
  · cases h
  · cases h

end Write

end TokenAccumulator
end ChainIndex
