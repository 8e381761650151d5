import ChainIndex.Proofs.Accumulator.Block
import ChainIndex.Proofs.Event.Issues
import ChainIndex.Proofs.Write.Nested

/-!
The owners of tokens. Of all that a block says of a token the accumulator keeps the owners in the order of the events,
and apart from them the last that a transfer names. Its changes enter the issuer and the time of the issue where they
are missing, append the owners that the document does not list, and put the last transfer over any issue.
-/
namespace ChainIndex

namespace Value

variable {items values : List Value} {w : Value}

/-- No two items are equal. -/
def Distinct (items : List Value) : Prop := items.Pairwise fun v w => v.same w = false

theorem prefix_addItem (items : List Value) (w : Value) : items <+: addItem items w := by
  unfold addItem
  split
  · exact List.prefix_refl items
  · exact List.prefix_append items [w]

theorem Distinct.addItem (h : Distinct items) (w : Value) : Distinct (addItem items w) := by
  unfold Value.addItem
  split
  · exact h
  · next hw =>
    -- the item is appended only where none of those before equals it
    have hnone : ∀ v ∈ items, v.same w = false := by
      intro v hv
      rw [same_comm]
      exact Bool.eq_false_iff.2 fun hsame => hw (List.any_eq_true.2 ⟨v, hv, hsame⟩)
    refine List.pairwise_append.2 ⟨h, List.pairwise_singleton _ w, fun v hv x hx => ?_⟩
    rw [List.mem_singleton.1 hx]
    exact hnone v hv

/-- Adding items keeps those that are there in their places. -/
theorem prefix_foldl_addItem (values items : List Value) : items <+: values.foldl addItem items :=
  List.foldlRecOn (motive := fun more => items <+: more) values addItem (List.prefix_refl items)
    fun more hm w _ => hm.trans (prefix_addItem more w)

theorem Distinct.foldl_addItem (h : Distinct items) (values : List Value) :
    Distinct (values.foldl Value.addItem items) :=
  List.foldlRecOn (motive := Distinct) values Value.addItem h fun _ hm w _ => hm.addItem w

def Alone (v : Value) : Prop := ∀ w, v.same w = true → w = v

theorem alone_str (text : String) : (Value.str text).Alone := fun _ h => same_str_left.1 h

theorem alone_nat (n : UInt64) : (Value.nat n).Alone := by
  intro w h
  cases w with
  | nat other => rw [beq_iff_eq.1 h]
  | _ => cases h

theorem eq_of_sameFields {fields others : Dict Value} (hf : ∀ e ∈ fields, e.2.Alone)
    (h : sameFields fields others = true) : others = fields := by
  induction fields generalizing others with
  | nil =>
    cases others with
    | nil => rfl
    | cons e rest => simp [sameFields] at h
  | cons e rest ih =>
    obtain ⟨key, v⟩ := e
    obtain ⟨hv, hrest⟩ := List.forall_mem_cons.1 hf
    cases others with
    | nil => simp [sameFields] at h
    | cons e' more =>
      obtain ⟨other, w⟩ := e'
      simp only [sameFields, Bool.and_eq_true, beq_iff_eq] at h
      obtain ⟨⟨rfl, hvw⟩, hmore⟩ := h
      rw [hv w hvw, ih hrest hmore]

theorem alone_obj {fields : Dict Value} (hf : ∀ e ∈ fields, e.2.Alone) : (Value.obj fields).Alone := by
  intro w h
  cases w with
  | obj others => exact congrArg obj (eq_of_sameFields hf h)
  | _ => cases h

/-- What was added is among the items itself, where nothing else equals it. -/
theorem mem_foldl_addItem (hw : w ∈ values) (ha : w.Alone) (items : List Value) :
    w ∈ values.foldl addItem items := by
  obtain ⟨v, hv, hsame⟩ := List.any_eq_true.1 (isAmong_foldl_addItem hw items)
  exact ha v hsame ▸ hv

end Value

/-- The fields of a document that comes from a text are members of the text. -/
theorem Json.mem_membersToValue {members : List (String × Json)} {fields : Dict Value} {e : String × Value}
    (h : e ∈ membersToValue fields members) : e ∈ fields ∨ ∃ m ∈ members, e.2 = m.2.toValue := by
  induction members generalizing fields with
  | nil => exact .inl h
  | cons m rest ih =>
    rcases ih h with h | ⟨other, ho, he⟩
    · rcases Dict.eq_or_mem_of_mem_insert h with rfl | h
      · exact .inr ⟨m, List.mem_cons_self, rfl⟩
      · exact .inl h
    · exact .inr ⟨other, List.mem_cons_of_mem m ho, he⟩

namespace OwnerData

def toItem (o : OwnerData) : Value := o.toJson.toValue

theorem alone_toItem (o : OwnerData) : o.toItem.Alone := by
  have htimestamp : (Json.nat o.timestamp.toNat).toValue = .nat o.timestamp := by
    simp [Json.nat, Json.toValue, Value.ofInt, o.timestamp.toNat_lt]
  refine Value.alone_obj fun e he => ?_
  obtain ⟨m, hm, hvalue⟩ := (Json.mem_membersToValue he).resolve_left List.not_mem_nil
  rw [hvalue]
  simp only [List.mem_append, List.mem_cons, List.not_mem_nil, or_false] at hm
  rcases hm with (rfl | rfl) | hm
  · exact Value.alone_str o.address
  · exact htimestamp ▸ Value.alone_nat o.timestamp
  · unfold Json.textField at hm
    split at hm
    · cases hm
    · rw [List.mem_singleton.1 hm]
      exact Value.alone_str o.txHash

end OwnerData

def infosOf (events : List Delta) (token : String) : List TokenInfo :=
  (events.filterMap Delta.tokenInfo?).filter (·.token = token)

theorem infosOf_append (events more : List Delta) (token : String) :
    infosOf (events ++ more) token = infosOf events token ++ infosOf more token := by
  simp [infosOf]

/-- Events that say something of a token name it. -/
theorem mem_tokenNames_of_infosOf {events : List Delta} {token : String} {info : TokenInfo}
    (h : info ∈ infosOf events token) : token ∈ events.flatMap Delta.tokenNames := by
  obtain ⟨hinfo, ht⟩ := List.mem_filter.1 h
  obtain ⟨delta, hd, hdelta⟩ := List.mem_filterMap.1 hinfo
  refine List.mem_flatMap.2 ⟨delta, hd, ?_⟩
  cases delta with
  | token other =>
    obtain rfl := Option.some.inj hdelta
    exact List.mem_singleton.2 (of_decide_eq_true ht).symm
  | _ => cases hdelta

/-- Other deltas are not of the issue family. -/
theorem infosOf_append_of_none {delta : Delta} (h : delta.tokenInfo? = none) (events : List Delta) (token : String) :
    infosOf (events ++ [delta]) token = infosOf events token := by
  simp [infosOf, h]

namespace TokenAccumulator

variable {acc : TokenAccumulator} {infos : List TokenInfo} {token : String}

/-- The owners are those that a run of events names: all of them in the history, and of the transfers the last. The
time of an issue is known with its issuer. -/
structure Owned (acc : TokenAccumulator) (infos : List TokenInfo) : Prop where
  history : acc.ownersHistory = (infos.filter (·.kind ≠ .change)).map (·.ownerEntry)
  current : acc.currentOwner = (infos.filter (·.kind = .transferOwnership)).getLast?.map (·.currentOwner)
  issued : acc.issuer.isSome → acc.issuedAt.isSome

theorem owned_empty : ({} : TokenAccumulator).Owned [] := ⟨rfl, rfl, nofun⟩

theorem Owned.addToken (h : acc.Owned infos) (info : TokenInfo) : (acc.addToken info).Owned (infos ++ [info]) := by
  have hhistory := h.history
  have hcurrent := h.current
  unfold TokenAccumulator.addToken
  split
  · next hk => exact ⟨by simp [hk, hhistory, describe], by simp [hk, hcurrent, describe], h.issued⟩
  · next hk => exact ⟨by simp [hk, hhistory, describe], by simp [hk, hcurrent, describe], by simp⟩
  · next hk => exact ⟨by simp [hk, hhistory], by simp [hk], h.issued⟩

section Fields

variable {key : String} {doc : Value}

def ownersIn (stored : Option Value) : List Value := ((Value.under stored "ownersHistory").bind Value.items?).getD []

def ownerFields : List String := ["issuer", "timestamp", "currentOwner", "ownersHistory"]

/-- Only issues and transfers change these fields. -/
theorem get?_allMutations_of_ownerField (hk : key ∈ ownerFields) (doc : Value) :
    (Mutation.applyAll (acc.allMutations token) doc).get? key =
      (Mutation.applyAll (acc.ownerMutations token)
        (Mutation.applyAll acc.issueMutations (Mutation.applyAll (acc.staticMutations token) doc))).get? key := by
  have hlast : ∀ m ∈ acc.lastMutations, m.Avoids key := by
    refine avoids_lastMutations ?_
    simp only [ownerFields, List.mem_cons, List.not_mem_nil, or_false] at hk
    rcases hk with rfl | rfl | rfl | rfl <;> decide
  -- the changes come in this order, whatever the order of the events was
  rw [allMutations_eq_static_append, restMutations_eq, Mutation.applyAll_append, Mutation.applyAll_append,
    Mutation.applyAll_append, Mutation.get?_applyAll_of_avoids hlast]

theorem get?_staticMutations_of_ownerField (hk : key ∈ ownerFields) (doc : Value) :
    (Mutation.applyAll (acc.staticMutations token) doc).get? key = doc.get? key := by
  refine Mutation.get?_applyAll_of_avoids (fun m hm => (simple_staticMutations m hm).2 key ?_) doc
  simp only [ownerFields, List.mem_cons, List.not_mem_nil, or_false] at hk
  rcases hk with rfl | rfl | rfl | rfl <;> decide

def issueFields (acc : TokenAccumulator) (issuer : String) : List (String × Value) :=
  ("issuer", .str issuer) :: (acc.initialOwner.toList.map fun owner => ("currentOwner", Value.str owner)) ++
    acc.issuedAt.toList.map fun time => ("timestamp", Value.nat time)

/-- The fields of an issue are filled in where they are missing, once the block knows an issuer. -/
theorem get?_issueMutations (acc : TokenAccumulator) (doc : Value) (key : String) :
    (Mutation.applyAll acc.issueMutations doc).get? key =
      (doc.get? key).or (acc.issuer.bind fun issuer => (Value.record (acc.issueFields issuer)).get? key) := by
  unfold issueMutations
  cases acc.issuer with
  | none => exact Option.or_none.symm
  | some issuer => exact Value.get?_mergeAbsent _ doc key

/-- Issuer and time of the issue go where there is nothing yet. -/
theorem get?_allMutations_issue (hk : key ∈ ["issuer", "timestamp"]) (token : String) (acc : TokenAccumulator)
    (doc : Value) : (Mutation.applyAll (acc.allMutations token) doc).get? key =
      (doc.get? key).or (acc.issuer.bind fun issuer => (Value.record (acc.issueFields issuer)).get? key) := by
  simp only [List.mem_cons, List.not_mem_nil, or_false] at hk
  have hfield : key ∈ ownerFields := by rcases hk with rfl | rfl <;> decide
  have howner : ∀ m ∈ acc.ownerMutations token, m.Avoids key := fun m hm =>
    (simple_ownerMutations m hm).2 key (by rcases hk with rfl | rfl <;> decide)
  rw [get?_allMutations_of_ownerField hfield, Mutation.get?_applyAll_of_avoids howner, get?_issueMutations,
    get?_staticMutations_of_ownerField hfield]

/-- An issuer comes with the first issue, if the document has none. -/
theorem get?_allMutations_issuer (token : String) (acc : TokenAccumulator) (doc : Value) :
    (Mutation.applyAll (acc.allMutations token) doc).get? "issuer" =
      (doc.get? "issuer").or (acc.issuer.map Value.str) := by
  rw [get?_allMutations_issue (by decide)]
  congr 1
  cases acc.issuer with
  | none => rfl
  | some issuer =>
    rw [Option.bind_some, Value.get?_record]
    cases ho : acc.initialOwner <;> cases ht : acc.issuedAt <;> simp [issueFields, ho, ht, Dict.find?]

/-- The time of the issue comes with the issuer. -/
theorem get?_allMutations_timestamp (token : String) (acc : TokenAccumulator) (doc : Value) :
    (Mutation.applyAll (acc.allMutations token) doc).get? "timestamp" =
      (doc.get? "timestamp").or (acc.issuer.bind fun _ => acc.issuedAt.map Value.nat) := by
  rw [get?_allMutations_issue (by decide)]
  congr 1
  cases acc.issuer with
  | none => rfl
  | some issuer =>
    rw [Option.bind_some, Option.bind_some, Value.get?_record]
    cases ho : acc.initialOwner <;> cases ht : acc.issuedAt <;> simp [issueFields, ho, ht, Dict.find?]

/-- The new owner of the last transfer stands over what issues say. -/
theorem get?_allMutations_currentOwner {owner : String} (ho : acc.currentOwner = some owner) (doc : Value) :
    (Mutation.applyAll (acc.allMutations token) doc).get? "currentOwner" = some (.str owner) := by
  rw [get?_allMutations_of_ownerField (by decide), get?_ownerMutations (by decide), ho]
  rfl

def onHistory (acc : TokenAccumulator) (old : Option Value) : Option Value :=
  if acc.ownersHistory.isEmpty then old else (Touch.adds (acc.ownersHistory.map OwnerData.toItem)).apply old

/-- Of all changes only that of the owners touches the history. -/
theorem get?_allMutations_ownersHistory (token : String) (acc : TokenAccumulator) (doc : Value) :
    (Mutation.applyAll (acc.allMutations token) doc).get? "ownersHistory" =
      acc.onHistory (doc.get? "ownersHistory") := by
  have hfirst : ∀ m ∈ acc.currentOwner.toList.map fun owner =>
      Mutation.merge (.record [("token", .str token), ("currentOwner", .str owner)]), m.Avoids "ownersHistory" := by
    intro m hm
    obtain ⟨owner, -, rfl⟩ := List.mem_map.1 hm
    exact Mutation.avoids_merge (by simp) (by simp [Dict.keys])
  have hissue : ∀ m ∈ acc.issueMutations, m.Avoids "ownersHistory" := fun m hm =>
    (simple_issueMutations m hm).2 _ (by decide)
  have hbefore : (Mutation.applyAll (acc.currentOwner.toList.map fun owner =>
      .merge (.record [("token", .str token), ("currentOwner", .str owner)]))
      (Mutation.applyAll acc.issueMutations (Mutation.applyAll (acc.staticMutations token) doc))).get?
        "ownersHistory" = doc.get? "ownersHistory" := by
    rw [Mutation.get?_applyAll_of_avoids hfirst, Mutation.get?_applyAll_of_avoids hissue,
      get?_staticMutations_of_ownerField (by decide)]
  rw [get?_allMutations_of_ownerField (by decide), ownerMutations, Mutation.applyAll_append, onHistory, ← hbefore]
  split
  · rfl
  · exact Mutation.touches_addToSet keys_ownersHistory _ _

/-- Owners that are not listed yet are appended. -/
theorem ownersIn_allMutations (token : String) (acc : TokenAccumulator) (doc : Value) :
    ownersIn (some (Mutation.applyAll (acc.allMutations token) doc)) =
      (acc.ownersHistory.map OwnerData.toItem).foldl Value.addItem (ownersIn (some doc)) := by
  rw [ownersIn, Value.under_some, get?_allMutations_ownersHistory, onHistory]
  split
  · next hempty =>
    rw [List.isEmpty_iff.1 hempty]
    rfl
  · rw [ownersIn, Value.under_some]
    cases doc.get? "ownersHistory" <;> rfl

end Fields

end TokenAccumulator

namespace BlockAccumulators

variable {acc : BlockAccumulators} {events : List Delta}

/-- What issues, type changes and transfers preserve, and changes of roles, properties and pauses do not touch, holds
of every token after one more delta. -/
theorem ofToken_add {motive : TokenAccumulator → List TokenInfo → Prop}
    (told : ∀ t infos info, motive t infos → motive (t.addToken info) (infos ++ [info]))
    (others : ∀ t infos roles properties paused, motive t infos → motive { t with roles, properties, paused } infos)
    (h : ∀ token, motive (acc.ofToken token) (infosOf events token)) (delta : Delta) (token : String) :
    motive ((acc.add delta).ofToken token) (infosOf (events ++ [delta]) token) := by
  have skip (hd : delta.tokenInfo? = none) (token : String) :
      motive (acc.ofToken token) (infosOf (events ++ [delta]) token) :=
    (infosOf_append_of_none hd events token).symm ▸ h token
  have other (name : String) {f : TokenAccumulator → TokenAccumulator}
      (hf : ∀ t infos, motive t infos → motive (f t) infos) (hd : delta.tokenInfo? = none) :
      motive ((acc.onToken name f).ofToken token) (infosOf (events ++ [delta]) token) := by
    rw [ofToken_onToken]
    split
    · next he => exact he ▸ hf _ _ (skip hd name)
    · exact skip hd token
  cases delta with
  | token info =>
    rw [infosOf_append, BlockAccumulators.add, ofToken_onToken]
    split
    · next he =>
      have hone : infosOf [.token info] token = [info] := by simp [infosOf, Delta.tokenInfo?, he]
      rw [hone, he]
      exact told _ _ info (h token)
    · next he =>
      have hnone : infosOf [.token info] token = [] := by simp [infosOf, Delta.tokenInfo?, he]
      rw [hnone, List.append_nil]
      exact h token
  | role change => exact other _ (fun t infos => others t infos _ t.properties t.paused) rfl
  | properties change => exact other _ (fun t infos => others t infos t.roles _ t.paused) rfl
  | nftUpdate u =>
    unfold BlockAccumulators.add BlockAccumulators.addUpdate
    dsimp only
    split
    · exact other _ (fun t infos => others t infos t.roles t.properties _) rfl
    · exact other _ (fun t infos => others t infos t.roles t.properties _) rfl
    · exact skip rfl token
  | _ => exact skip rfl token

def Owned (acc : BlockAccumulators) (events : List Delta) : Prop :=
  ∀ token, (acc.ofToken token).Owned (infosOf events token)

end BlockAccumulators

namespace Registry

/-- What is gathered of the tokens from the logs of a block, by induction on what events of the issue family say. -/
theorem ofToken_processLogs_induction {motive : TokenAccumulator → List TokenInfo → Prop} (r : Registry) (pool : Pool)
    (timestamp : UInt64) (start : motive {} [])
    (told : ∀ t infos info, motive t infos → motive (t.addToken info) (infos ++ [info]))
    (others : ∀ t infos roles properties paused, motive t infos → motive { t with roles, properties, paused } infos)
    (token : String) :
    motive ((r.processLogs pool timestamp).ofToken token) (infosOf (r.deltas pool timestamp) token) :=
  r.processLogs_induction (motive := fun acc events => ∀ token, motive (acc.ofToken token) (infosOf events token))
    pool timestamp (fun _ => start) (fun _ _ delta _ h => BlockAccumulators.ofToken_add told others h delta) token

/-- The owners that are gathered from the logs of a block. -/
theorem owned_processLogs (r : Registry) (pool : Pool) (timestamp : UInt64) :
    (r.processLogs pool timestamp).Owned (r.deltas pool timestamp) :=
  r.ofToken_processLogs_induction pool timestamp TokenAccumulator.owned_empty (fun _ _ info h => h.addToken info)
    fun _ _ _ _ _ h => ⟨h.history, h.current, h.issued⟩

end Registry
end ChainIndex
