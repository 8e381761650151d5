import ChainIndex.Proofs.Accumulator.Owners
import ChainIndex.Proofs.Accumulator.Roles

/-!
What a block says of a token, field by field: some fields are told, whatever the document has, and others are filled
where it has nothing. Of deltas that come in two parts the accumulator has what the accumulators of the parts have, the
later part over the earlier, but for the first issue, which stays.
-/
namespace ChainIndex

def Delta.tellsToken (delta : Delta) (token : String) (t : TokenAccumulator) : TokenAccumulator :=
  match delta with
  | .token info => if info.token = token then t.addToken info else t
  | .role change => if change.token = token then t.addRole change else t
  | .properties change => if change.token = token then t.addProperties change else t
  | .nftUpdate u =>
    if u.identifier = token then
      match u.change with
      | .pause => t.setPaused true
      | .unPause => t.setPaused false
      | _ => t
    else t
  | _ => t

/-- All that a delta can do to what is gathered of a token. -/
theorem Delta.tellsToken_cases (delta : Delta) (token : String) :
    (∀ t, delta.tellsToken token t = t) ∨ (∃ info, ∀ t, delta.tellsToken token t = t.addToken info) ∨
      (∃ change, delta = .role change ∧ change.token = token ∧ ∀ t, delta.tellsToken token t = t.addRole change) ∨
      (∃ change, ∀ t, delta.tellsToken token t = t.addProperties change) ∨
      ∃ paused, ∀ t, delta.tellsToken token t = t.setPaused paused := by
  cases delta with
  | token info =>
    by_cases h : info.token = token
    · exact .inr (.inl ⟨info, fun _ => if_pos h⟩)
    · exact .inl fun _ => if_neg h
  | role change =>
    by_cases h : change.token = token
    · exact .inr (.inr (.inl ⟨change, rfl, h, fun _ => if_pos h⟩))
    · exact .inl fun _ => if_neg h
  | properties change =>
    by_cases h : change.token = token
    · exact .inr (.inr (.inr (.inl ⟨change, fun _ => if_pos h⟩)))
    · exact .inl fun _ => if_neg h
  | nftUpdate u =>
    obtain ⟨identifier, address, change⟩ := u
    by_cases h : identifier = token
    · cases change with
      | pause => exact .inr (.inr (.inr (.inr ⟨true, fun _ => if_pos h⟩)))
      | unPause => exact .inr (.inr (.inr (.inr ⟨false, fun _ => if_pos h⟩)))
      | _ => exact .inl fun _ => if_pos h
    · exact .inl fun _ => if_neg h
  | _ => exact .inl fun _ => rfl

namespace BlockAccumulators

/-- What is gathered of a token depends on nothing but the deltas and what was gathered of it before. -/
theorem ofToken_add_eq (acc : BlockAccumulators) (delta : Delta) (token : String) :
    (acc.add delta).ofToken token = delta.tellsToken token (acc.ofToken token) := by
  have onOne (name : String) (f : TokenAccumulator → TokenAccumulator) :
      (acc.onToken name f).ofToken token = if name = token then f (acc.ofToken token) else acc.ofToken token := by
    rw [ofToken_onToken]
    split
    · next he => rw [he]
    · rfl
  cases delta with
  | token info => exact onOne _ _
  | role change => exact onOne _ _
  | properties change => exact onOne _ _
  | nftUpdate u =>
    obtain ⟨identifier, address, change⟩ := u
    have hother : acc.ofToken token = if identifier = token then acc.ofToken token else acc.ofToken token :=
      (ite_self _).symm
    cases change with
    | pause => exact onOne _ _
    | unPause => exact onOne _ _
    | _ => exact hother
  | _ => rfl

/-- What is gathered of a token comes from the deltas in order. -/
theorem ofToken_addAll (acc : BlockAccumulators) (deltas : List Delta) (token : String) :
    (acc.addAll deltas).ofToken token = deltas.foldl (fun t d => d.tellsToken token t) (acc.ofToken token) := by
  induction deltas generalizing acc with
  | nil => rfl
  | cons delta rest ih =>
    rw [List.foldl_cons, ← ofToken_add_eq]
    exact ih (acc.add delta)

end BlockAccumulators

namespace TokenAccumulator

variable {a b c : TokenAccumulator} {token key : String}

def gather (token : String) (deltas : List Delta) : TokenAccumulator :=
  deltas.foldl (fun t d => d.tellsToken token t) {}

/-- What every delta keeps of a token: the accumulator is in order, owner and time of an issue are known with its
issuer, and no role has a dot in its name. -/
structure Sound (t : TokenAccumulator) : Prop where
  ordered : t.Ordered
  owner : t.initialOwner.isSome = t.issuer.isSome
  time : t.issuedAt.isSome = t.issuer.isSome
  dotless : ∀ e ∈ t.roles, '.' ∉ e.1.toList

def Dotless (token : String) (delta : Delta) : Prop :=
  ∀ change, delta = .role change → change.token = token → '.' ∉ change.role.toList

theorem sound_empty : ({} : TokenAccumulator).Sound := ⟨ordered_empty, rfl, rfl, nofun⟩

theorem Sound.addToken (h : a.Sound) (info : TokenInfo) : (a.addToken info).Sound := by
  have hissued : (a.addToken info).initialOwner.isSome = (a.addToken info).issuer.isSome ∧
      (a.addToken info).issuedAt.isSome = (a.addToken info).issuer.isSome := by
    unfold TokenAccumulator.addToken
    split
    · exact ⟨h.owner, h.time⟩
    · simp
    · exact ⟨h.owner, h.time⟩
  exact ⟨h.ordered.addToken info, hissued.1, hissued.2, (roles_addToken a info).symm ▸ h.dotless⟩

theorem Sound.addRole (h : a.Sound) {change : RoleChange} (hdot : '.' ∉ change.role.toList) :
    (a.addRole change).Sound := by
  refine ⟨h.ordered.addRole change, h.owner, h.time, fun e he => ?_⟩
  rcases Dict.eq_or_mem_of_mem_insert he with rfl | he
  · exact hdot
  · exact h.dotless e he

theorem Sound.tells (h : a.Sound) {delta : Delta} (hd : Dotless token delta) : (delta.tellsToken token a).Sound := by
  rcases delta.tellsToken_cases token with
    hnone | ⟨info, hinfo⟩ | ⟨change, rfl, ht, hrole⟩ | ⟨change, hproperties⟩ | ⟨paused, hpaused⟩
  · rw [hnone]
    exact h
  · rw [hinfo]
    exact h.addToken info
  · rw [hrole]
    exact h.addRole (hd change rfl ht)
  · rw [hproperties]
    exact ⟨h.ordered.addProperties change, h.owner, h.time, h.dotless⟩
  · rw [hpaused]
    exact ⟨h.ordered.setPaused paused, h.owner, h.time, h.dotless⟩

theorem sound_gather {deltas : List Delta} (h : ∀ d ∈ deltas, Dotless token d) : (gather token deltas).Sound :=
  List.foldlRecOn (motive := Sound) deltas _ sound_empty fun _ ht d hd => ht.tells (h d hd)

structure Joins (a b c : TokenAccumulator) : Prop where
  static : c.static =
    (b.static.map fun s => { s with decimals := s.decimals.or (a.static.bind (·.decimals)) }).or a.static
  issuer : c.issuer = a.issuer.or b.issuer
  initialOwner : c.initialOwner = a.initialOwner.or b.initialOwner
  issuedAt : c.issuedAt = a.issuedAt.or b.issuedAt
  currentOwner : c.currentOwner = b.currentOwner.or a.currentOwner
  ownersHistory : c.ownersHistory = a.ownersHistory ++ b.ownersHistory
  changeToDynamic : c.changeToDynamic = (b.changeToDynamic || a.changeToDynamic)
  paused : c.paused = b.paused.or a.paused
  grants : ∀ role address, c.grant? role address = (b.grant? role address).or (a.grant? role address)
  properties : ∀ name, c.properties.find? name = (b.properties.find? name).or (a.properties.find? name)

theorem joins_empty (a : TokenAccumulator) : Joins a {} a where
  static := rfl
  issuer := Option.or_none.symm
  initialOwner := Option.or_none.symm
  issuedAt := Option.or_none.symm
  currentOwner := rfl
  ownersHistory := (List.append_nil _).symm
  changeToDynamic := rfl
  paused := rfl
  grants := fun _ _ => rfl
  properties := fun _ => rfl

/-- A type or names that are told again take the decimals that were known. -/
theorem Joins.describe (h : Joins a b c) (info : TokenInfo) :
    Joins a (b.describe info) (c.describe info) where
  static := by
    simp only [TokenAccumulator.describe, h.static]
    cases ha : a.static with
    | none => cases b.static <;> simp
    | some s => cases b.static <;> simp [Option.or_assoc]
  issuer := h.issuer
  initialOwner := h.initialOwner
  issuedAt := h.issuedAt
  currentOwner := h.currentOwner
  ownersHistory := h.ownersHistory
  changeToDynamic := by
    simp only [TokenAccumulator.describe, h.changeToDynamic]
    cases a.changeToDynamic <;> cases b.changeToDynamic <;> simp
  paused := h.paused
  grants := h.grants
  properties := h.properties

theorem Joins.addToken (h : Joins a b c) (info : TokenInfo) : Joins a (b.addToken info) (c.addToken info) := by
  unfold TokenAccumulator.addToken
  split
  · exact h.describe info
  · have hd := h.describe info
    exact { hd with
      issuer := by simp [TokenAccumulator.describe, h.issuer]
      initialOwner := by simp [TokenAccumulator.describe, h.initialOwner]
      issuedAt := by simp [TokenAccumulator.describe, h.issuedAt]
      ownersHistory := by simp [TokenAccumulator.describe, h.ownersHistory] }
  · exact { h with
      currentOwner := rfl
      ownersHistory := by simp [h.ownersHistory] }

theorem Joins.addRole (h : Joins a b c) (change : RoleChange) : Joins a (b.addRole change) (c.addRole change) := by
  refine { h with grants := fun role address => ?_ }
  rw [grant?_addRole, grant?_addRole, h.grants]
  split <;> rfl

theorem Joins.addProperties (h : Joins a b c) (change : PropertiesChange) :
    Joins a (b.addProperties change) (c.addProperties change) := by
  refine { h with properties := fun name => ?_ }
  simp only [TokenAccumulator.addProperties, Dict.find?_extend, h.properties, Option.or_assoc]

theorem Joins.setPaused (h : Joins a b c) (paused : Bool) : Joins a (b.setPaused paused) (c.setPaused paused) :=
  { h with paused := rfl }

/-- One more delta in the later part. -/
theorem Joins.tells (h : Joins a b c) (delta : Delta) (token : String) :
    Joins a (delta.tellsToken token b) (delta.tellsToken token c) := by
  rcases delta.tellsToken_cases token with
    hnone | ⟨info, hinfo⟩ | ⟨change, -, -, hrole⟩ | ⟨change, hproperties⟩ | ⟨paused, hpaused⟩
  · rw [hnone, hnone]
    exact h
  · rw [hinfo, hinfo]
    exact h.addToken info
  · rw [hrole, hrole]
    exact h.addRole change
  · rw [hproperties, hproperties]
    exact h.addProperties change
  · rw [hpaused, hpaused]
    exact h.setPaused paused

/-- What is gathered of two runs of events joins the accumulators of each. -/
theorem joins_gather_append (token : String) (earlier later : List Delta) :
    Joins (gather token earlier) (gather token later) (gather token (earlier ++ later)) := by
  rw [gather, gather, gather, List.foldl_append]
  generalize earlier.foldl _ _ = a
  have hstart := joins_empty a
  suffices hall : ∀ b c, Joins a b c → Joins a (later.foldl (fun t d => d.tellsToken token t) b)
      (later.foldl (fun t d => d.tellsToken token t) c) from hall _ _ hstart
  induction later with
  | nil => exact fun _ _ h => h
  | cons delta rest ih => exact fun b c h => ih _ _ (h.tells delta token)

section Fields

variable {acc : TokenAccumulator} {doc : Value}

def told? (token : String) (acc : TokenAccumulator) (key : String) : Option Value :=
  match key with
  | "token" => if acc.static.isSome || acc.currentOwner.isSome then some (.str token) else none
  | "name" => acc.static.map fun s => .str s.name
  | "ticker" => acc.static.map fun s => .str s.ticker
  | "type" => acc.static.map fun s => .str s.type
  | "numDecimals" => (acc.static.bind (·.decimals)).map .nat
  | "currentOwner" => acc.currentOwner.map .str
  | "changedToDynamic" => if acc.changeToDynamic then some (.bool true) else none
  | "paused" => acc.paused.map .bool
  | _ => none

def filled? (acc : TokenAccumulator) (key : String) : Option Value :=
  match key with
  | "issuer" => acc.issuer.map .str
  | "currentOwner" => acc.initialOwner.map .str
  | "timestamp" => acc.issuedAt.map .nat
  | _ => none

theorem told?_eq (token : String) (acc : TokenAccumulator) (key : String) :
    acc.told? token key =
      (acc.paused.bind fun paused => (Value.record [("paused", .bool paused)]).get? key).or
        ((if acc.changeToDynamic then (Value.record [("changedToDynamic", .bool true)]).get? key else none).or
          ((acc.currentOwner.bind fun owner =>
              (Value.record [("token", .str token), ("currentOwner", .str owner)]).get? key).or
            (acc.static.bind fun s => (Value.record (staticEntries token s)).get? key))) := by
  have howner (owner : String) : (Value.record [("token", .str token), ("currentOwner", .str owner)]).get? key =
      if "currentOwner" = key then some (.str owner) else if "token" = key then some (.str token) else none :=
    Value.get?_record _ key
  simp only [get?_staticEntries, howner, Value.get?_record_singleton]
  unfold told?
  split
  · cases acc.static <;> cases acc.currentOwner <;> simp
  · cases acc.static <;> simp
  · cases acc.static <;> simp
  · cases acc.static <;> simp
  · cases acc.static <;> simp
  · cases acc.currentOwner <;> cases acc.static <;> simp
  · cases acc.changeToDynamic <;> cases acc.static <;> simp
  · cases acc.paused <;> cases acc.static <;> simp
  · next htoken _ _ _ _ howner hdynamic hpaused =>
    simp_all [Ne.symm htoken, Ne.symm howner, Ne.symm hdynamic, Ne.symm hpaused]

/-- An issue is known as a whole or not at all. -/
theorem Sound.get?_issueFields (h : acc.Sound) (key : String) :
    (acc.issuer.bind fun issuer => (Value.record (acc.issueFields issuer)).get? key) = acc.filled? key := by
  have howner := h.owner
  have htime := h.time
  unfold filled?
  cases hi : acc.issuer with
  | none =>
    rw [hi, Option.isSome_none, Option.isSome_eq_false_iff, Option.isNone_iff_eq_none] at howner htime
    split <;> simp [howner, htime]
  | some issuer =>
    rw [hi, Option.isSome_some, Option.isSome_iff_exists] at howner htime
    obtain ⟨owner, ho⟩ := howner
    obtain ⟨time, ht⟩ := htime
    rw [Option.bind_some, Value.get?_record]
    simp only [issueFields, ho, ht]
    split <;> simp_all [Dict.find?, eq_comm]

/-- The fields beside roles, properties and the history of owners. -/
theorem Sound.get?_allMutations (h : acc.Sound) (hk : key ∉ ["roles", "properties", "ownersHistory"]) (token : String)
    (doc : Value) :
    (Mutation.applyAll (acc.allMutations token) doc).get? key =
      (acc.told? token key).or ((doc.get? key).or (acc.filled? key)) := by
  simp only [List.mem_cons, List.not_mem_nil, or_false, not_or] at hk
  obtain ⟨hroles, hproperties, hhistory⟩ := hk
  rw [allMutations_eq_static_append, restMutations_eq, Mutation.applyAll_append, Mutation.applyAll_append,
    Mutation.applyAll_append, get?_lastMutations (Ne.symm hroles) (Ne.symm hproperties),
    get?_ownerMutations (Ne.symm hhistory), get?_issueMutations, h.get?_issueFields, get?_staticMutations, told?_eq]
  simp only [Option.or_assoc]

/-- A field is told by the later part, or else by the earlier one. -/
theorem Joins.told? (h : Joins a b c) (token key : String) :
    c.told? token key = (b.told? token key).or (a.told? token key) := by
  unfold TokenAccumulator.told?
  split
  · rw [h.static, h.currentOwner]
    cases a.static <;> cases b.static <;> cases a.currentOwner <;> cases b.currentOwner <;> rfl
  · rw [h.static]
    cases b.static <;> rfl
  · rw [h.static]
    cases b.static <;> rfl
  · rw [h.static]
    cases b.static <;> rfl
  · rw [h.static]
    cases b.static with
    | none => rfl
    | some s => exact Option.map_or
  · rw [h.currentOwner]
    exact Option.map_or
  · rw [h.changeToDynamic]
    cases b.changeToDynamic <;> rfl
  · rw [h.paused]
    exact Option.map_or
  · rfl

theorem Joins.filled? (h : Joins a b c) (key : String) :
    c.filled? key = (a.filled? key).or (b.filled? key) := by
  unfold TokenAccumulator.filled?
  split
  · rw [h.issuer]
    exact Option.map_or
  · rw [h.initialOwner]
    exact Option.map_or
  · rw [h.issuedAt]
    exact Option.map_or
  · rfl

theorem Joins.onHistory (h : Joins a b c) (old : Option Value) : c.onHistory old = b.onHistory (a.onHistory old) := by
  unfold TokenAccumulator.onHistory
  rw [h.ownersHistory]
  cases a.ownersHistory with
  | nil => rfl
  | cons o owners =>
    cases b.ownersHistory with
    | nil => simp
    | cons o' owners' =>
      simp only [List.isEmpty_cons, Bool.false_eq_true, ↓reduceIte, Touch.apply, Option.getD_some, Value.addEach_eq,
        List.map_append, List.foldl_append]
      rfl

theorem get?_propertiesValue (acc : TokenAccumulator) (name : String) :
    acc.propertiesValue.get? name = (acc.properties.find? name).map .bool :=
  Dict.find?_map acc.properties (fun _ on => Value.bool on) name

/-- A property is what the block tells, or what it was. -/
theorem Ordered.under_onProperties (h : acc.Ordered) (old : Option Value) (name : String) :
    Value.under (acc.onProperties old) name = ((acc.properties.find? name).map .bool).or (Value.under old name) := by
  unfold TokenAccumulator.onProperties
  split
  · next hempty => rw [Dict.isEmpty_iff.1 hempty]; rfl
  · rw [← get?_propertiesValue]
    cases old with
    | none => simp
    | some w => exact Value.get?_merge h.propertiesValue.1 w name

theorem Ordered.exists_onProperties (h : acc.Ordered) (hne : acc.properties.isEmpty = false) {old : Option Value}
    (hold : ∀ w, old = some w → w.Ordered) : ∃ v, acc.onProperties old = some v ∧ v.IsDocument := by
  obtain ⟨-, hdoc⟩ := h.propertiesValue
  unfold TokenAccumulator.onProperties
  rw [hne]
  cases old with
  | none => exact ⟨_, rfl, hdoc⟩
  | some w => exact ⟨_, rfl, hdoc.merge (hold w rfl)⟩

theorem Joins.isEmpty_properties (h : Joins a b c) :
    c.properties.isEmpty = (b.properties.isEmpty && a.properties.isEmpty) := by
  refine Bool.eq_iff_iff.2 ?_
  simp only [Bool.and_eq_true, Dict.isEmpty_iff, h.properties, Option.or_eq_none_iff, forall_and]

/-- Properties that are merged in two parts are those merged at once. -/
theorem Joins.onProperties (h : Joins a b c) (ha : a.Ordered) (hb : b.Ordered) (hc : c.Ordered) {old : Option Value}
    (hold : ∀ w, old = some w → w.Ordered) : c.onProperties old = b.onProperties (a.onProperties old) := by
  have hempty := h.isEmpty_properties
  by_cases hnone : b.properties.isEmpty = true ∧ a.properties.isEmpty = true
  · simp [TokenAccumulator.onProperties, hempty, hnone.1, hnone.2]
  have hparts : ∃ w, b.onProperties (a.onProperties old) = some w ∧ w.IsDocument := by
    cases hea : a.properties.isEmpty with
    | true =>
      have hsame : a.onProperties old = old := by simp [TokenAccumulator.onProperties, hea]
      rw [hsame]
      exact hb.exists_onProperties (by simpa [hea] using hnone) hold
    | false =>
      obtain ⟨v, hv, hdoc⟩ := ha.exists_onProperties hea hold
      cases heb : b.properties.isEmpty with
      | true => exact ⟨v, by simp [TokenAccumulator.onProperties, heb, ← hv], hdoc⟩
      | false => exact hb.exists_onProperties heb fun w hw => Option.some.inj (hv.symm.trans hw) ▸ hdoc.ordered
  obtain ⟨w, hw, hwdoc⟩ := hparts
  obtain ⟨v, hv, hvdoc⟩ := hc.exists_onProperties (by simpa [hempty] using hnone) hold
  have hunder (name : String) : Value.under (c.onProperties old) name =
      Value.under (b.onProperties (a.onProperties old)) name := by
    rw [hc.under_onProperties, hb.under_onProperties, ha.under_onProperties, h.properties, Option.map_or, Option.or_assoc]
  rw [hv, hw] at hunder ⊢
  exact congrArg some (hvdoc.record.ext hwdoc.record hunder)

def grantTo? (acc : TokenAccumulator) (role : String) (w : Value) : Option Bool := w.text?.bind (acc.grant? role)

/-- The list of a role has what the block grants it and, where the block says nothing, what it had. -/
theorem Sound.mem_holdersIn_allMutations (h : acc.Sound) (hd : doc.IsDocument) (token role : String) (w : Value) :
    w ∈ holdersIn (some (Mutation.applyAll (acc.allMutations token) doc)) role ↔
      acc.grantTo? role w = some true ∨ acc.grantTo? role w = none ∧ w ∈ holdersIn (some doc) role := by
  simp only [holdersIn, Value.under_some, get?_allMutations_roles hd, grantTo?]
  cases hw : w.text? with
  | none => simp [mem_onRoles_of_not_text h.dotless hw]
  | some address =>
    obtain rfl : w = .str address := by
      cases w with
      | str text => exact congrArg Value.str (Option.some.inj hw)
      | _ => cases hw
    rw [mem_holders_onRoles h.ordered, Option.bind_some]
    split
    · next hr => simp [grant?_of_dot h.dotless hr]
    · -- what goes on after the role would have a dot
      have hnone (other : String) (hwithin : Within role other) (holder : String) :
          acc.grant? other holder ≠ some true := by
        obtain ⟨rest, rfl⟩ := hwithin
        rw [grant?_of_dot h.dotless (by simp)]
        nofun
      exact and_iff_right hnone

theorem Joins.grantTo? (h : Joins a b c) (role : String) (w : Value) :
    c.grantTo? role w = (b.grantTo? role w).or (a.grantTo? role w) := by
  unfold TokenAccumulator.grantTo?
  cases w.text? with
  | none => rfl
  | some address => exact h.grants role address

end Fields

end TokenAccumulator
end ChainIndex
