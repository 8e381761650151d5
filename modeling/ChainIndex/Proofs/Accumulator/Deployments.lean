import ChainIndex.Proofs.Accumulator.Owners

/-!
The document of a contract whose changes come one block at a time, in any order and some of them again. Deployer and
time come from the deployment, the owner from the last change or else from the deployment, and upgrades and owners are
listed once each. Only the code is that of whatever came last, so a deployment that comes late takes back the code of
an upgrade.
-/
namespace ChainIndex

namespace Value

theorem alone_record {fields : List (String × Value)} (h : ∀ e ∈ fields, e.2.Alone) : (Value.record fields).Alone := by
  refine alone_obj fun e he => ?_
  have hf := (Dict.sorted_ofList fields).find?_of_mem he
  rw [Dict.find?_ofList] at hf
  exact h _ (List.mem_reverse.1 (Dict.mem_of_find? hf))

/-- Distinct items in the order in which they first come, and one more. -/
theorem addItem_eraseDups {α : Type} [DecidableEq α] {f : α → Value} {xs : List α} {x : α}
    (hf : ∀ y ∈ xs, (f x).same (f y) = true → x = y) :
    addItem (xs.eraseDups.map f) (f x) = ((xs ++ [x]).eraseDups).map f := by
  rw [List.eraseDups_append]
  by_cases hx : x ∈ xs
  · have hamong : (f x).isAmong (xs.eraseDups.map f) = true :=
      isAmong_of_mem (List.mem_map.2 ⟨x, List.mem_eraseDups.2 hx, rfl⟩)
    simp [addItem, hamong, List.removeAll, hx]
  · have hamong : (f x).isAmong (xs.eraseDups.map f) = false := by
      refine Bool.eq_false_iff.2 fun h => ?_
      obtain ⟨v, hv, hsame⟩ := List.any_eq_true.1 h
      obtain ⟨y, hy, rfl⟩ := List.mem_map.1 hv
      have hmem := List.mem_eraseDups.1 hy
      exact hx (hf y hmem hsame ▸ hmem)
    simp [addItem, hamong, List.removeAll, hx, List.eraseDups_cons]

end Value

namespace Upgrade

def toItem (u : Upgrade) : Value :=
  .record [("upgrader", .str u.upgrader), ("codeHash", .str u.codeHash), ("txHash", .str u.txHash),
    ("timestamp", .nat u.timestamp)]

theorem alone_toItem (u : Upgrade) : u.toItem.Alone :=
  Value.alone_record (by simp [Value.alone_str, Value.alone_nat])

/-- Upgrades of one contract are told apart by their items. -/
theorem eq_of_same {u v : Upgrade} (hc : u.contract = v.contract) (h : u.toItem.same v.toItem = true) : u = v := by
  have hget (key : String) : v.toItem.get? key = u.toItem.get? key := congrArg (·.get? key) (u.alone_toItem _ h)
  have hupgrader := hget "upgrader"
  have hcode := hget "codeHash"
  have hhash := hget "txHash"
  have htime := hget "timestamp"
  cases u
  cases v
  simp_all [toItem, Value.get?_record, Dict.find?]

end Upgrade

namespace OwnerChange

def toItem (c : OwnerChange) : Value :=
  .record [("address", .str c.owner.address), ("timestamp", .nat c.owner.timestamp), ("txHash", .str c.owner.txHash)]

theorem alone_toItem (c : OwnerChange) : c.toItem.Alone :=
  Value.alone_record (by simp [Value.alone_str, Value.alone_nat])

theorem eq_of_same {c d : OwnerChange} (hc : c.contract = d.contract) (h : c.toItem.same d.toItem = true) : c = d := by
  have hget (key : String) : d.toItem.get? key = c.toItem.get? key := congrArg (·.get? key) (c.alone_toItem _ h)
  have haddress := hget "address"
  have hhash := hget "txHash"
  have htime := hget "timestamp"
  obtain ⟨contract, ⟨address, timestamp, txHash⟩⟩ := c
  obtain ⟨contract', ⟨address', timestamp', txHash'⟩⟩ := d
  simp_all [toItem, Value.get?_record, Dict.find?]

end OwnerChange

def codeOf? (codeHash : String) : Option String := if codeHash.isEmpty then none else some codeHash

def Deployment.told (d : Deployment) : List (String × Value) :=
  [("deployer", .str d.creator), ("deployTxHash", .str d.txHash), ("timestamp", .nat d.timestamp)] ++
    (codeOf? d.codeHash).toList.map fun hash => ("codeHash", .str hash)

theorem Deployment.mutations_eq (d : Deployment) :
    d.mutations = [.merge (.record d.told), .mergeIfAbsent (.record [("currentOwner", .str d.creator)])] := by
  unfold mutations told codeOf?
  split <;> rfl

theorem Deployment.isFlat_told (d : Deployment) : (Value.record d.told).IsFlat := by
  refine Value.isFlat_record ?_
  unfold told
  cases codeOf? d.codeHash <;> simp

section Fields

variable (doc : Value) (key : String)

theorem Deployment.get?_told (d : Deployment) :
    (Value.record d.told).get? key =
      match key with
      | "deployer" => some (.str d.creator)
      | "deployTxHash" => some (.str d.txHash)
      | "timestamp" => some (.nat d.timestamp)
      | "codeHash" => (codeOf? d.codeHash).map .str
      | _ => none := by
  rw [Value.get?_record, told]
  cases codeOf? d.codeHash with
  | none => split <;> simp_all [Dict.find?, eq_comm]
  | some hash => split <;> simp_all [Dict.find?, eq_comm]

/-- What a deployment makes of each field. The owner is only filled in; an empty code hash leaves the stored one. -/
theorem Deployment.get?_mutations (d : Deployment) :
    (Mutation.applyAll d.mutations doc).get? key =
      match key with
      | "deployer" => some (.str d.creator)
      | "deployTxHash" => some (.str d.txHash)
      | "timestamp" => some (.nat d.timestamp)
      | "codeHash" => ((codeOf? d.codeHash).map .str).or (doc.get? key)
      | "currentOwner" => (doc.get? key).or (some (.str d.creator))
      | _ => doc.get? key := by
  rw [mutations_eq, Mutation.applyAll_cons, Mutation.applyAll_cons, Mutation.applyAll_nil, Mutation.apply,
    Mutation.apply, Value.get?_mergeAbsent, Value.get?_merge d.isFlat_told, get?_told, Value.get?_record_singleton]
  by_cases hk : "currentOwner" = key
  · subst hk
    rfl
  · rw [if_neg hk, Option.or_none]
    split <;> simp_all [eq_comm]

/-- An upgrade changes the code hash and adds itself to the list. -/
theorem Upgrade.get?_mutations (u : Upgrade) :
    (Mutation.applyAll u.mutations doc).get? key =
      match key with
      | "codeHash" => ((codeOf? u.codeHash).map .str).or (doc.get? key)
      | "upgrades" => (Touch.adds [u.toItem]).apply (doc.get? key)
      | _ => doc.get? key := by
  have hcode : (Mutation.applyAll (if u.codeHash.isEmpty then []
      else [.merge (.record [("codeHash", .str u.codeHash)])]) doc).get? key =
        (if "codeHash" = key then (codeOf? u.codeHash).map .str else none).or (doc.get? key) := by
    unfold codeOf?
    split
    · simp
    · rw [Mutation.applyAll_cons, Mutation.applyAll_nil, Mutation.apply,
        Value.get?_merge (Value.isFlat_record_singleton _ _ rfl), Value.get?_record_singleton]
      rfl
  have hkeys : Path.keys "upgrades" = ["upgrades"] := rfl
  rw [mutations, Mutation.applyAll_append, Mutation.applyAll_cons, Mutation.applyAll_nil]
  by_cases hk : "upgrades" = key
  · subst hk
    refine (Mutation.touches_addToSet hkeys [u.toItem] _).trans ?_
    rw [hcode]
    rfl
  · refine (Mutation.avoids_addToSet hkeys hk _ _).trans (hcode.trans ?_)
    by_cases hc : "codeHash" = key
    · rw [if_pos hc, ← hc]
      rfl
    · rw [if_neg hc, Option.none_or]
      split
      · exact absurd rfl hc
      · exact absurd rfl hk
      · rfl

/-- A change of owner sets the owner and adds to the history. -/
theorem OwnerChange.get?_mutations (c : OwnerChange) :
    (Mutation.applyAll c.mutations doc).get? key =
      match key with
      | "currentOwner" => some (.str c.owner.address)
      | "ownersHistory" => (Touch.adds [c.toItem]).apply (doc.get? key)
      | _ => doc.get? key := by
  have howner : ((Mutation.merge (.record [("currentOwner", .str c.owner.address)])).apply doc).get? key =
      (if "currentOwner" = key then some (.str c.owner.address) else none).or (doc.get? key) := by
    rw [Mutation.apply, Value.get?_merge (Value.isFlat_record_singleton _ _ rfl), Value.get?_record_singleton]
  have hkeys : Path.keys "ownersHistory" = ["ownersHistory"] := rfl
  rw [mutations, Mutation.applyAll_cons, Mutation.applyAll_cons, Mutation.applyAll_nil]
  by_cases hk : "ownersHistory" = key
  · subst hk
    refine (Mutation.touches_addToSet hkeys [c.toItem] _).trans ?_
    rw [howner]
    rfl
  · refine (Mutation.avoids_addToSet hkeys hk _ _).trans (howner.trans ?_)
    by_cases hc : "currentOwner" = key
    · rw [if_pos hc, ← hc]
      rfl
    · rw [if_neg hc, Option.none_or]
      split
      · exact absurd rfl hc
      · exact absurd rfl hk
      · rfl

end Fields

namespace Delta

def deployment? : Delta → Option Deployment
  | deployed d => some d
  | _ => none

def upgrade? : Delta → Option Upgrade
  | upgraded u => some u
  | _ => none

def ownerChange? : Delta → Option OwnerChange
  | ownerChanged c => some c
  | _ => none

/-- The code that the delta gives its contract, if it tells one. -/
def code? : Delta → Option String
  | deployed d => codeOf? d.codeHash
  | upgraded u => codeOf? u.codeHash
  | _ => none

def contract? : Delta → Option String
  | deployed d => some d.contract
  | upgraded u => some u.contract
  | ownerChanged c => some c.contract
  | _ => none

theorem contract?_of_upgrade? {delta : Delta} {u : Upgrade} (h : delta.upgrade? = some u) :
    delta.contract? = some u.contract := by
  cases delta with
  | upgraded other => exact congrArg (Option.map Upgrade.contract) h
  | _ => cases h

theorem contract?_of_ownerChange? {delta : Delta} {c : OwnerChange} (h : delta.ownerChange? = some c) :
    delta.contract? = some c.contract := by
  cases delta with
  | ownerChanged other => exact congrArg (Option.map OwnerChange.contract) h
  | _ => cases h

/-- The delta is an upgrade of the contract or a change of its owner. -/
def Changes (contract : String) : Delta → Prop
  | upgraded u => u.contract = contract
  | ownerChanged c => c.contract = contract
  | _ => False

theorem Changes.contract? {delta : Delta} {contract : String} (h : delta.Changes contract) :
    delta.contract? = some contract := by
  cases delta with
  | upgraded u => exact congrArg some h
  | ownerChanged c => exact congrArg some h
  | _ => cases h

theorem Changes.deployment? {delta : Delta} {contract : String} (h : delta.Changes contract) :
    delta.deployment? = none := by
  cases delta with
  | deployed d => cases h
  | _ => rfl

def contractMutations : Delta → List Mutation
  | deployed d => d.mutations
  | upgraded u => u.mutations
  | ownerChanged c => c.mutations
  | _ => []

end Delta

def lastCode? (deltas : List Delta) : Option String := (deltas.filterMap Delta.code?).getLast?

def contractField (deltas : List Delta) (key : String) : Option Value :=
  let deployment? := (deltas.filterMap Delta.deployment?).getLast?
  let upgrades := deltas.filterMap Delta.upgrade?
  let changes := deltas.filterMap Delta.ownerChange?
  match key with
  | "deployer" => deployment?.map fun d => .str d.creator
  | "deployTxHash" => deployment?.map fun d => .str d.txHash
  | "timestamp" => deployment?.map fun d => .nat d.timestamp
  | "codeHash" => (lastCode? deltas).map .str
  | "currentOwner" => (changes.getLast?.map fun c => .str c.owner.address).or
      ((deltas.filterMap Delta.deployment?).head?.map fun d => .str d.creator)
  | "upgrades" => if upgrades.isEmpty then none else some (.arr (upgrades.eraseDups.map Upgrade.toItem))
  | "ownersHistory" => if changes.isEmpty then none else some (.arr (changes.eraseDups.map OwnerChange.toItem))
  | _ => none

section Step

variable {deltas : List Delta} {contract : String} {doc : Value}

/-- A deployment that is delivered last makes of each field what all deltas so far tell. -/
theorem get?_mutations_deployed (d : Deployment) (hdoc : ∀ key, doc.get? key = contractField deltas key)
    (key : String) : (Mutation.applyAll d.mutations doc).get? key = contractField (deltas ++ [.deployed d]) key := by
  rw [Deployment.get?_mutations, hdoc]
  simp only [contractField, lastCode?, List.filterMap_append, List.filterMap_cons, List.filterMap_nil,
    Delta.deployment?, Delta.upgrade?, Delta.ownerChange?, Delta.code?, List.append_nil]
  generalize deltas.filterMap Delta.deployment? = deployments
  generalize deltas.filterMap Delta.code? = codes
  split
  · simp
  · simp
  · simp
  · cases codeOf? d.codeHash <;> simp
  · cases deployments <;> simp
  · split <;> simp_all

/-- One more item, where those told of the contract before are told apart by theirs. -/
theorem addItem_told {α : Type} [DecidableEq α] {told? : Delta → Option α} {contractOf : α → String} {item : α → Value}
    (hcontract : ∀ delta x, told? delta = some x → delta.contract? = some (contractOf x))
    (hitem : ∀ x y, contractOf x = contractOf y → (item x).same (item y) = true → x = y)
    (hall : ∀ delta ∈ deltas, delta.contract? = some contract) {x : α} (hx : contractOf x = contract) :
    Value.addItem ((deltas.filterMap told?).eraseDups.map item) (item x) =
      ((deltas.filterMap told? ++ [x]).eraseDups).map item := by
  refine Value.addItem_eraseDups fun y hy hsame => hitem x y ?_ hsame
  obtain ⟨delta, hd, htold⟩ := List.mem_filterMap.1 hy
  exact hx.trans (Option.some.inj ((hall delta hd).symm.trans (hcontract delta y htold)))

theorem get?_mutations_upgraded (hall : ∀ delta ∈ deltas, delta.contract? = some contract) {u : Upgrade}
    (hu : u.contract = contract) (hdoc : ∀ key, doc.get? key = contractField deltas key) (key : String) :
    (Mutation.applyAll u.mutations doc).get? key = contractField (deltas ++ [.upgraded u]) key := by
  have hitems := addItem_told (fun _ _ => Delta.contract?_of_upgrade?) (fun _ _ => Upgrade.eq_of_same) hall hu
  rw [Upgrade.get?_mutations, hdoc]
  simp only [contractField, lastCode?, List.filterMap_append, List.filterMap_cons, List.filterMap_nil,
    Delta.deployment?, Delta.upgrade?, Delta.ownerChange?, Delta.code?, List.append_nil]
  generalize deltas.filterMap Delta.upgrade? = upgrades at hitems
  generalize deltas.filterMap Delta.code? = codes
  split
  · cases codeOf? u.codeHash <;> simp
  · rw [← hitems, Touch.apply, Value.addEach_eq]
    cases upgrades <;> simp [Value.items?]
  · split <;> simp_all

theorem get?_mutations_ownerChanged (hall : ∀ delta ∈ deltas, delta.contract? = some contract) {c : OwnerChange}
    (hc : c.contract = contract) (hdoc : ∀ key, doc.get? key = contractField deltas key) (key : String) :
    (Mutation.applyAll c.mutations doc).get? key = contractField (deltas ++ [.ownerChanged c]) key := by
  have hitems := addItem_told (fun _ _ => Delta.contract?_of_ownerChange?) (fun _ _ => OwnerChange.eq_of_same) hall hc
  rw [OwnerChange.get?_mutations, hdoc]
  simp only [contractField, lastCode?, List.filterMap_append, List.filterMap_cons, List.filterMap_nil,
    Delta.deployment?, Delta.upgrade?, Delta.ownerChange?, Delta.code?, List.append_nil]
  generalize deltas.filterMap Delta.ownerChange? = changes at hitems
  split
  · simp
  · rw [← hitems, Touch.apply, Value.addEach_eq]
    cases changes <;> simp [Value.items?]
  · split <;> simp_all

end Step

namespace BlockAccumulators

/-- The one write of a block whose only delta is about the contract. -/
theorem applyAt_contractWrites {delta : Delta} {contract : String} (h : delta.contract? = some contract)
    (stored : Option Value) :
    WriteItem.applyAt contract (({} : BlockAccumulators).addAll [delta]).contractWrites stored =
      some (Mutation.applyAll delta.contractMutations (stored.getD .empty)) := by
  have hone (ms : List Mutation) (hms : ms ≠ []) :
      WriteItem.applyAt contract (({} : BlockAccumulators).onContract contract ms).contractWrites stored =
        some (Mutation.applyAll ms (stored.getD .empty)) := by
    simp [contractWrites, onContract, Dict.alter, Dict.insert, ContractAccumulator.add, hms, WriteAction.apply]
  cases delta with
  | deployed d =>
    obtain rfl := Option.some.inj h
    exact hone _ (by simp [Deployment.mutations])
  | upgraded u =>
    obtain rfl := Option.some.inj h
    exact hone _ (by simp [Upgrade.mutations])
  | ownerChanged c =>
    obtain rfl := Option.some.inj h
    exact hone _ (by simp [OwnerChange.mutations])
  | _ => cases h

end BlockAccumulators

section Deliveries

variable {deltas later : List Delta} {contract : String} {d : Deployment}

/-- The document of a contract after deltas of which each comes in a block of its own. -/
def deliverEach (contract : String) (deltas : List Delta) (stored : Option Value) : Option Value :=
  deltas.foldl (fun stored delta =>
    WriteItem.applyAt contract (({} : BlockAccumulators).addAll [delta]).contractWrites stored) stored

theorem ordered_contractMutations (delta : Delta) : ∀ m ∈ delta.contractMutations, m.Ordered := by
  intro m hm
  cases delta with
  | deployed d => exact (d.simple_mutations m hm).ordered
  | upgraded u => exact (u.simple_mutations m hm).ordered
  | ownerChanged c => exact (c.simple_mutations m hm).ordered
  | _ => cases hm

structure Recorded (deltas : List Delta) (stored : Option Value) : Prop where
  fields : ∀ key, Value.under stored key = contractField deltas key
  document : ∀ doc, stored = some doc → doc.IsDocument
  made : deltas ≠ [] → stored.isSome = true

theorem recorded_nil : Recorded [] none := by
  refine ⟨fun key => ?_, nofun, fun h => absurd rfl h⟩
  unfold contractField
  split <;> rfl

/-- One more delta of the contract. -/
theorem Recorded.deliver {stored : Option Value} (h : Recorded deltas stored)
    (hall : ∀ delta ∈ deltas, delta.contract? = some contract) {delta : Delta} (hd : delta.contract? = some contract) :
    Recorded (deltas ++ [delta])
      (WriteItem.applyAt contract (({} : BlockAccumulators).addAll [delta]).contractWrites stored) := by
  have hdoc (key : String) : (stored.getD .empty).get? key = contractField deltas key := by
    rw [Value.get?_getD_empty, h.fields]
  rw [BlockAccumulators.applyAt_contractWrites hd]
  refine ⟨fun key => ?_, fun doc he => ?_, fun _ => rfl⟩
  · rw [Value.under_some]
    cases delta with
    | deployed d => exact get?_mutations_deployed d hdoc key
    | upgraded u => exact get?_mutations_upgraded hall (Option.some.inj hd) hdoc key
    | ownerChanged c => exact get?_mutations_ownerChanged hall (Option.some.inj hd) hdoc key
    | _ => cases hd
  · obtain rfl := Option.some.inj he
    exact Mutation.isDocument_applyAll (ordered_contractMutations delta) (Value.isDocument_getD h.document)

theorem recorded_deliverEach (hall : ∀ delta ∈ deltas, delta.contract? = some contract) :
    Recorded deltas (deliverEach contract deltas none) := by
  induction deltas using List.reverseRecOn with
  | nil => exact recorded_nil
  | append_singleton init delta ih =>
    obtain ⟨hinit, hlast⟩ := List.forall_mem_append.1 hall
    rw [deliverEach, List.foldl_append]
    exact (ih hinit).deliver hinit (hlast delta (List.mem_singleton_self delta))

/-- The document of a deployed contract, with the code that it has, its upgrades and its changes of owner. -/
def Deployment.document (d : Deployment) (code : Option String) (upgrades : List Upgrade)
    (changes : List OwnerChange) : Value :=
  .record <|
    [("deployer", .str d.creator), ("deployTxHash", .str d.txHash), ("timestamp", .nat d.timestamp),
      ("currentOwner", .str ((changes.getLast?.map (·.owner.address)).getD d.creator))] ++
    (code.toList.map fun hash => ("codeHash", .str hash)) ++
    (if upgrades.isEmpty then [] else [("upgrades", .arr (upgrades.eraseDups.map Upgrade.toItem))]) ++
    if changes.isEmpty then [] else [("ownersHistory", .arr (changes.eraseDups.map OwnerChange.toItem))]

/-- With one deployment, its document has in each field what the deltas tell. -/
theorem Deployment.get?_document (hfirst : (deltas.filterMap Delta.deployment?).head? = some d)
    (hlast : (deltas.filterMap Delta.deployment?).getLast? = some d) (key : String) :
    (d.document (lastCode? deltas) (deltas.filterMap Delta.upgrade?) (deltas.filterMap Delta.ownerChange?)).get? key =
      contractField deltas key := by
  have hcode (code : Option String) (key : String) :
      Dict.find? (code.toList.map fun hash => ("codeHash", Value.str hash)).reverse key =
        if "codeHash" = key then code.map .str else none := by
    cases code <;> simp [Dict.find?]
  have hlist (empty : Bool) (name : String) (v : Value) (key : String) :
      Dict.find? (if empty then [] else [(name, v)]).reverse key =
        if name = key then if empty then none else some v else none := by
    cases empty <;> simp [Dict.find?]
  have hget := Value.get?_record
  simp only [contractField, hfirst, hlast]
  generalize deltas.filterMap Delta.upgrade? = upgrades
  generalize deltas.filterMap Delta.ownerChange? = changes
  split
  all_goals simp only [document, hget, List.reverse_append, Dict.find?_append, hcode, hlist]
  · simp [Dict.find?]
  · simp [Dict.find?]
  · simp [Dict.find?]
  · simp [Dict.find?]
  · cases changes.getLast? <;> simp [Dict.find?]
  · simp [Dict.find?]
  · simp [Dict.find?]
  · next h₁ h₂ h₃ h₄ h₅ h₆ h₇ =>
    simp [Dict.find?, Ne.symm h₁, Ne.symm h₂, Ne.symm h₃, Ne.symm h₄, Ne.symm h₅, Ne.symm h₆, Ne.symm h₇]

/-- After a deployment that comes at all, and alone, the document is that of the deployment. -/
theorem Recorded.eq_document {stored : Option Value} (h : Recorded deltas stored) (hmem : .deployed d ∈ deltas)
    (halone : ∀ other ∈ deltas.filterMap Delta.deployment?, other = d) :
    stored = some (d.document (lastCode? deltas) (deltas.filterMap Delta.upgrade?)
      (deltas.filterMap Delta.ownerChange?)) := by
  obtain ⟨doc, rfl⟩ := Option.isSome_iff_exists.1 (h.made (List.ne_nil_of_mem hmem))
  have hne : deltas.filterMap Delta.deployment? ≠ [] := List.ne_nil_of_mem (List.mem_filterMap.2 ⟨_, hmem, rfl⟩)
  have hfirst : (deltas.filterMap Delta.deployment?).head? = some d := by
    rw [List.head?_eq_some_head hne, halone _ (List.head_mem hne)]
  have hlast : (deltas.filterMap Delta.deployment?).getLast? = some d := by
    rw [List.getLast?_eq_some_getLast hne, halone _ (List.getLast_mem hne)]
  refine congrArg some ((h.document doc rfl).record.ext (Value.isRecord_record _) fun key => ?_)
  exact (h.fields key).trans (Deployment.get?_document hfirst hlast key).symm

/-- The deployment and later changes of its contract, in any order and the deployment any number of times. -/
theorem recorded_deployed (hall : ∀ delta ∈ deltas, delta = .deployed d ∨ delta.Changes d.contract)
    (hmem : .deployed d ∈ deltas) :
    Recorded deltas (deliverEach d.contract deltas none) ∧
      deliverEach d.contract deltas none = some (d.document (lastCode? deltas) (deltas.filterMap Delta.upgrade?)
        (deltas.filterMap Delta.ownerChange?)) := by
  have hcontract : ∀ delta ∈ deltas, delta.contract? = some d.contract := fun delta hd =>
    (hall delta hd).elim (fun he => he ▸ rfl) Delta.Changes.contract?
  have halone : ∀ other ∈ deltas.filterMap Delta.deployment?, other = d := by
    intro other hother
    obtain ⟨delta, hd, hdelta⟩ := List.mem_filterMap.1 hother
    rcases hall delta hd with rfl | hchange
    · exact (Option.some.inj hdelta).symm
    · rw [hchange.deployment?] at hdelta
      cases hdelta
  have hrecorded := recorded_deliverEach hcontract
  exact ⟨hrecorded, hrecorded.eq_document hmem halone⟩

theorem lastCode?_cons (delta : Delta) (deltas : List Delta) :
    lastCode? (delta :: deltas) = (lastCode? deltas).or delta.code? := by
  unfold lastCode?
  rw [List.filterMap_cons]
  cases delta.code? with
  | none => exact Option.or_none.symm
  | some code =>
    rw [List.getLast?_cons]
    cases (deltas.filterMap Delta.code?).getLast? <;> rfl

/-- Whether a deployment comes first and once, or late or again, the document has its deployer, hash and time, the owner
of the last change or else the creator, and each upgrade and each owner once, in their order. The code is that of the
last delta that tells one, and so the document is that of the first order if and only if this is the code of the last
upgrade that tells one, or else of the deployment. -/
theorem deliverEach_eq_iff (d : Deployment) {later deltas : List Delta}
    (hlater : ∀ delta ∈ later, delta.Changes d.contract) (hsame : deltas.filter (· ≠ .deployed d) = later)
    (hmem : .deployed d ∈ deltas) :
    let upgrades := later.filterMap Delta.upgrade?
    let changes := later.filterMap Delta.ownerChange?
    let code? := (lastCode? later).or (codeOf? d.codeHash)
    deliverEach d.contract deltas none = some (d.document (lastCode? deltas) upgrades changes) ∧
      deliverEach d.contract (.deployed d :: later) none = some (d.document code? upgrades changes) ∧
      (deliverEach d.contract deltas none = deliverEach d.contract (.deployed d :: later) none ↔
        lastCode? deltas = code?) := by
  intro upgrades changes code?
  have hall : ∀ delta ∈ deltas, delta = .deployed d ∨ delta.Changes d.contract := fun delta hd => by
    by_cases he : delta = .deployed d
    · exact .inl he
    · exact .inr (hlater delta (hsame ▸ List.mem_filter.2 ⟨hd, decide_eq_true he⟩))
  have hfirst : ∀ delta ∈ .deployed d :: later, delta = .deployed d ∨ delta.Changes d.contract :=
    List.forall_mem_cons.2 ⟨.inl rfl, fun delta hd => .inr (hlater delta hd)⟩
  -- what is told of upgrades and of owners does not hang on the deployment
  have hskip {α : Type} (f : Delta → Option α) (hf : f (.deployed d) = none) : deltas.filterMap f = later.filterMap f := by
    rw [← hsame, List.filterMap_filter]
    refine List.filterMap_congr fun delta _ => ?_
    by_cases he : delta = .deployed d
    · simp [he, hf]
    · simp [he]
  obtain ⟨hrecorded, hdoc⟩ := recorded_deployed hall hmem
  obtain ⟨hrecorded', hdoc'⟩ := recorded_deployed hfirst List.mem_cons_self
  have hlast : lastCode? (.deployed d :: later) = code? := lastCode?_cons _ later
  rw [hskip _ rfl, hskip _ rfl] at hdoc
  rw [hlast] at hdoc'
  refine ⟨hdoc, hdoc', fun he => ?_, fun he => by rw [hdoc, hdoc', he]; rfl⟩
  have hcode := congrArg (Value.under · "codeHash") he
  rw [hrecorded.fields, hrecorded'.fields] at hcode
  rw [← hlast]
  exact Option.map_injective (fun _ _ => Value.str.inj) hcode

/-- A deployment that comes after an upgrade, and once more before it. -/
theorem deliverEach_eq_iff_late :
    let d : Deployment := { contract := "c", creator := "a", codeHash := "c0de", txHash := "b1", timestamp := 1 }
    let u : Upgrade := { contract := "c", upgrader := "a", codeHash := "beef", txHash := "b2", timestamp := 2 }
    let later : List Delta := [.upgraded u]
    let late : List Delta := [.upgraded u, .deployed d]
    let again : List Delta := [.deployed d, .deployed d, .upgraded u]
    (∀ delta ∈ later, delta.Changes d.contract) ∧ late.filter (· ≠ .deployed d) = later ∧ .deployed d ∈ late ∧
      deliverEach "c" late none ≠ deliverEach "c" (.deployed d :: later) none ∧
      again.filter (· ≠ .deployed d) = later ∧ .deployed d ∈ again ∧
      deliverEach "c" again none = deliverEach "c" (.deployed d :: later) none := by
  intro d u later late again
  have hlater : ∀ delta ∈ later, delta.Changes d.contract := List.forall_mem_singleton.2 rfl
  have hlate : late.filter (· ≠ .deployed d) = later := by decide
  have hagain : again.filter (· ≠ .deployed d) = later := by decide
  have hmem : .deployed d ∈ late := by decide
  have hmem' : .deployed d ∈ again := by decide
  refine ⟨hlater, hlate, hmem, fun he => ?_, hagain, hmem', ?_⟩
  · exact absurd ((deliverEach_eq_iff d hlater hlate hmem).2.2.1 he) (by decide)
  · exact (deliverEach_eq_iff d hlater hagain hmem').2.2.2 (by decide)

end Deliveries

end ChainIndex
