import ChainIndex.Proofs.Fee.Ledger
import ChainIndex.Proofs.Latch
import ChainIndex.Proofs.Items
import ChainIndex.Proofs.Text.Split

/-!
Documents in key order throughout. Writes whose values are in order keep them so, and then every
document is told by its fields.
-/
namespace ChainIndex

theorem Path.keys_ne_nil (path : String) : keys path ≠ [] := by
  simp [keys, Text.splitAll_ne_nil]

namespace Value

variable {v w doc : Value}

/-- An object with its keys in order, and so in everything that it holds. -/
structure IsDocument (v : Value) : Prop where
  record : v.IsRecord
  ordered : v.Ordered

theorem isDocument_empty : empty.IsDocument :=
  ⟨isRecord_empty, List.Pairwise.nil, trivial⟩

/-- What is not stored counts as an empty document. -/
theorem isDocument_getD {stored : Option Value} (h : ∀ doc, stored = some doc → doc.IsDocument) :
    (stored.getD .empty).IsDocument := by
  cases stored with
  | none => exact isDocument_empty
  | some old => exact h old rfl

theorem isDocument_obj {fields : Dict Value} (hs : fields.Sorted) (ho : FieldsOrdered fields) :
    (Value.obj fields).IsDocument :=
  ⟨⟨fields, rfl, hs⟩, hs, ho⟩

theorem Ordered.sorted (h : v.Ordered) : v.fieldsOrEmpty.Sorted := by
  cases v with
  | obj fields => exact h.1
  | _ => exact List.Pairwise.nil

theorem Ordered.fields (h : v.Ordered) : FieldsOrdered v.fieldsOrEmpty := by
  cases v with
  | obj fields => exact h.2
  | _ => trivial

theorem FieldsOrdered.find? {fields : Dict Value} (h : FieldsOrdered fields) {key : String}
    (hf : fields.find? key = some w) : w.Ordered :=
  fieldsOrdered_iff.1 h _ (Dict.mem_of_find? hf)

theorem Ordered.get? (h : v.Ordered) {key : String} (hw : v.get? key = some w) : w.Ordered := by
  rw [get?_eq_find?] at hw
  exact h.fields.find? hw

theorem Ordered.getD_find? {fields : Dict Value} (h : FieldsOrdered fields) (key : String) :
    ((fields.find? key).getD .null).Ordered := by
  cases hf : fields.find? key with
  | none => trivial
  | some w => exact h.find? hf

theorem Ordered.items (h : v.Ordered) : ∀ w ∈ v.items?.getD [], w.Ordered := by
  cases v with
  | arr items => exact itemsOrdered_iff.1 h
  | _ => nofun

theorem Ordered.insert (h : v.Ordered) (key : String) (hw : w.Ordered) :
    (Value.obj (v.fieldsOrEmpty.insert key w)).IsDocument :=
  isDocument_obj (h.sorted.insert key w) (h.fields.insert key hw)

theorem IsDocument.set (h : v.IsDocument) (key : String) (hw : w.Ordered) : (v.set key w).IsDocument :=
  h.ordered.insert key hw

theorem FieldsOrdered.erase {fields : Dict Value} (h : FieldsOrdered fields) (key : String) :
    FieldsOrdered (fields.erase key) :=
  fieldsOrdered_iff.2 fun e he => fieldsOrdered_iff.1 h e ((List.mem_filter.1 he).1)

theorem Ordered.eraseKey (h : v.Ordered) (key : String) : (v.eraseKey key).Ordered := by
  cases v with
  | obj fields => exact ⟨h.1.erase key, h.2.erase key⟩
  | _ => exact h

theorem isDocument_record {fields : List (String × Value)} (h : ∀ e ∈ fields, e.2.Ordered) :
    (Value.record fields).IsDocument := by
  refine isDocument_obj (Dict.sorted_ofList fields) (fieldsOrdered_iff.2 fun e he => ?_)
  have hf := (Dict.sorted_ofList fields).find?_of_mem he
  rw [Dict.find?_ofList] at hf
  exact h _ (List.mem_reverse.1 (Dict.mem_of_find? hf))

@[simp] theorem fields?_str (text : String) : (Value.str text).fields? = none := rfl

@[simp] theorem fields?_nat (n : UInt64) : (Value.nat n).fields? = none := rfl

@[simp] theorem fields?_bool (b : Bool) : (Value.bool b).fields? = none := rfl

@[simp] theorem ordered_str (text : String) : (Value.str text).Ordered := trivial

@[simp] theorem ordered_nat (n : UInt64) : (Value.nat n).Ordered := trivial

@[simp] theorem ordered_bool (b : Bool) : (Value.bool b).Ordered := trivial

@[simp] theorem fields?_double (x : Double) : (Value.double x).fields? = none := by
  unfold double
  split <;> rfl

@[simp] theorem ordered_double (x : Double) : (Value.double x).Ordered := by
  unfold double
  split <;> trivial

@[simp] theorem fields?_strings (texts : List String) : (Value.strings texts).fields? = none := rfl

@[simp] theorem ordered_strings (texts : List String) : (Value.strings texts).Ordered := by
  refine itemsOrdered_iff.2 fun w hw => ?_
  obtain ⟨text, -, rfl⟩ := List.mem_map.1 hw
  trivial

theorem Ordered.merge {patch : Value} (hp : patch.Ordered) (h : v.Ordered) : (patch.merge v).Ordered := by
  induction patch using induction_fields generalizing v with
  | plain patch hplain => rwa [merge_of_plain hplain]
  | obj news ih =>
    cases v with
    | obj fields =>
      rw [Value.merge, mergeFields_eq_foldl]
      refine List.foldlRecOn (motive := fun fields => Dict.Sorted fields ∧ FieldsOrdered fields) news mergeEntry h ?_
      intro fields hf e he
      have hentry := fieldsOrdered_iff.1 hp.2 e he
      refine ⟨hf.1.alter e.1 _, hf.2.insert e.1 ?_⟩
      cases hold : Dict.find? fields e.1 with
      | none => exact hentry
      | some old => exact ih e he hentry (hf.2.find? hold)
    | _ => rwa [merge_onto_plain rfl]

theorem IsDocument.merge {patch : Value} (hp : patch.IsDocument) (h : v.Ordered) :
    (patch.merge v).IsDocument := by
  have hordered := hp.ordered.merge h
  refine ⟨?_, hordered⟩
  obtain ⟨news, rfl, hs⟩ := hp.record
  cases v with
  | obj fields =>
    rw [Value.merge] at hordered ⊢
    exact ⟨_, rfl, hordered.1⟩
  | _ => exact ⟨news, by simp [Value.merge], hs⟩

theorem Ordered.mergeAbsent {patch : Value} (hp : patch.Ordered) (h : v.Ordered) :
    (patch.mergeAbsent v).IsDocument := by
  have hnews := fieldsOrdered_iff.1 hp.fields
  have hfold := List.foldlRecOn (motive := fun fields => Dict.Sorted fields ∧ FieldsOrdered fields)
    patch.fieldsOrEmpty (fun fields e => Dict.insertIfAbsent fields e.1 e.2) ⟨h.sorted, h.fields⟩
    fun fields hf e he => by
      unfold Dict.insertIfAbsent
      split
      · exact hf
      · exact ⟨hf.1.insert e.1 e.2, hf.2.insert e.1 (hnews e he)⟩
  exact isDocument_obj hfold.1 hfold.2

/-- Writing keeps the order of whatever is there, and makes an object unless it writes the whole. -/
theorem Ordered.writeAt {f : Value → Value} (hf : ∀ w : Value, w.Ordered → (f w).Ordered) (keys : List String)
    (h : v.Ordered) : (v.writeAt f keys).Ordered := by
  induction keys generalizing v with
  | nil => exact hf v h
  | cons key rest ih => exact (h.insert key (ih (Ordered.getD_find? h.fields key))).ordered

theorem Ordered.adjustAt {f : Value → Value} (hf : ∀ w : Value, w.Ordered → (f w).Ordered)
    (keys : List String) (h : v.Ordered) : (v.adjustAt f keys).Ordered := by
  induction keys generalizing v with
  | nil => exact hf v h
  | cons key rest ih =>
    cases v with
    | obj fields =>
      simp only [Value.adjustAt]
      cases hw : Dict.find? fields key with
      | none => exact h
      | some w => exact ⟨h.1.insert key _, h.2.insert key (ih (h.2.find? hw))⟩
    | _ => exact h

theorem Ordered.addEach {values : List Value} (hv : ∀ w ∈ values, w.Ordered) (h : v.Ordered) :
    (addEach values v).Ordered := by
  refine itemsOrdered_iff.2 ?_
  refine List.foldlRecOn (motive := fun items => ∀ w ∈ items, Ordered w) values _ h.items
    fun items hi w hw => ?_
  split
  · exact hi
  · intro x hx
    rcases List.mem_append.1 hx with hx | hx
    · exact hi x hx
    · exact List.mem_singleton.1 hx ▸ hv w hw

theorem Ordered.filter {items : List Value} (h : (Value.arr items).Ordered) (keep : Value → Bool) :
    (Value.arr (items.filter keep)).Ordered :=
  itemsOrdered_iff.2 fun w hw => itemsOrdered_iff.1 h w (List.mem_filter.1 hw).1

theorem Ordered.dropWhere (key : String) (values : List Value) (h : v.Ordered) :
    (dropWhere key values v).Ordered := by
  cases v with
  | arr items => exact h.filter _
  | _ => exact h

theorem Ordered.dropEqual (value : Value) (h : v.Ordered) : (dropEqual value v).Ordered := by
  cases v with
  | arr items => exact h.filter _
  | _ => exact h

theorem IsDocument.writeAt {f : Value → Value} (hf : ∀ w : Value, w.Ordered → (f w).Ordered)
    {keys : List String} (hk : keys ≠ []) (h : v.IsDocument) : (v.writeAt f keys).IsDocument := by
  cases keys with
  | nil => exact absurd rfl hk
  | cons key rest => exact h.ordered.insert key (Ordered.writeAt hf rest (Ordered.getD_find? h.ordered.fields key))

theorem IsDocument.of_obj (hw : w.Ordered) (hobj : ∃ fields, w = .obj fields) : w.IsDocument := by
  obtain ⟨fields, rfl⟩ := hobj
  exact isDocument_obj hw.1 hw.2

theorem IsDocument.adjustAt {f : Value → Value} (hf : ∀ w : Value, w.Ordered → (f w).Ordered)
    {keys : List String} (hk : keys ≠ []) (h : v.IsDocument) : (v.adjustAt f keys).IsDocument := by
  refine .of_obj (Ordered.adjustAt hf keys h.ordered) ?_
  obtain ⟨fields, rfl, -⟩ := h.record
  cases keys with
  | nil => exact absurd rfl hk
  | cons key rest =>
    simp only [Value.adjustAt]
    cases Dict.find? fields key <;> exact ⟨_, rfl⟩

theorem IsDocument.eraseAt (keys : List String) (h : v.IsDocument) : (v.eraseAt keys).IsDocument := by
  unfold Value.eraseAt
  cases keys.getLast? with
  | none => exact h
  | some key =>
    have herase (w : Value) (hw : w.Ordered) : (w.eraseKey key).Ordered := hw.eraseKey key
    cases hinit : keys.dropLast with
    | nil => exact ⟨h.record.eraseKey key, h.ordered.eraseKey key⟩
    | cons first rest => exact h.adjustAt herase (List.cons_ne_nil first rest)

end Value

namespace Fee

variable {doc : Value}

theorem sorted_storedRefunds (h : doc.Ordered) : (storedRefunds doc).Sorted := by
  unfold storedRefunds
  split
  · next refunds hr => exact Dict.Sorted.map (h.get? hr).1 fun _ v => refundOfValue v
  · exact List.Pairwise.nil

theorem ordered_refundsValue {refunds : Dict Refund} (h : refunds.Sorted) : (refundsValue refunds).Ordered := by
  refine ⟨Dict.Sorted.map h fun _ r => refundToValue r, Value.fieldsOrdered_iff.2 fun e he => ?_⟩
  obtain ⟨r, -, rfl⟩ := List.mem_map.1 he
  refine (Value.isDocument_record ?_).ordered
  simp [Value.Ordered]

theorem isDocument_setFee (fee : Amount) (d : Denomination) (h : doc.IsDocument) :
    (setFee fee d doc).IsDocument :=
  (h.set _ (by trivial)).set _ (Value.ordered_double _)

theorem isDocument_adjust (onFee : Amount → Amount) (onGas : UInt64 → UInt64) (d : Denomination)
    (h : doc.IsDocument) : (adjust onFee onGas d doc).IsDocument := by
  have hgas (charged : Value) (hc : charged.IsDocument) (gas : UInt64) :
      (charged.set gasUsedField (.nat (onGas gas))).IsDocument := hc.set _ (by trivial)
  unfold adjust
  cases ((doc.get? feeField).bind Value.text?).bind Amount.ofText? with
  | some fee =>
    have hfee := isDocument_setFee (onFee fee) d h
    dsimp only
    split
    · exact hgas _ hfee _
    · exact hfee
  | none =>
    dsimp only
    split
    · exact hgas _ h _
    · exact h

theorem isDocument_setRefunds {refunds : Dict Refund} (hr : refunds.Sorted) (h : doc.IsDocument) :
    (setRefunds refunds doc).IsDocument := by
  unfold setRefunds
  split
  · exact Value.isDocument_obj (h.ordered.sorted.erase _) (h.ordered.fields.erase _)
  · exact h.set _ (ordered_refundsValue hr)

end Fee

/-- A write of the fee keeps the document in order. -/
theorem FeeWrite.isDocument_apply (write : FeeWrite) {doc : Value} (h : doc.IsDocument) :
    (write.apply doc).IsDocument := by
  have hs := Fee.sorted_storedRefunds h.ordered
  cases write with
  | absolute fee gasUsed refunds d =>
    unfold FeeWrite.apply
    dsimp only
    have hgas {gas : UInt64} (fee : Amount) :
        ((Fee.setFee fee d doc).set Fee.gasUsedField (.nat gas)).IsDocument :=
      (Fee.isDocument_setFee fee d h).set _ (by trivial)
    split
    · exact hgas _
    · exact (hgas _).set _ (Fee.ordered_refundsValue (hs.extend refunds))
  | relativeAdjust id refund d =>
    unfold FeeWrite.apply
    dsimp only
    split
    · exact h
    · exact Fee.isDocument_adjust _ _ d (h.set _ (Fee.ordered_refundsValue (hs.insert id refund)))
  | revertRefund id d =>
    unfold FeeWrite.apply
    dsimp only
    split
    · exact Fee.isDocument_adjust _ _ d (Fee.isDocument_setRefunds (hs.erase id) h)
    · exact h

namespace Mutation

@[simp] theorem applyAll_nil (doc : Value) : applyAll [] doc = doc := rfl

@[simp] theorem applyAll_cons (m : Mutation) (ms : List Mutation) (doc : Value) :
    applyAll (m :: ms) doc = applyAll ms (m.apply doc) := rfl

theorem applyAll_append (first second : List Mutation) (doc : Value) :
    applyAll (first ++ second) doc = applyAll second (applyAll first doc) := List.foldl_append

variable {m : Mutation} {ms : List Mutation} {doc : Value}

def Ordered : Mutation → Prop
  | merge patch => patch.IsDocument
  | mergeIfAbsent patch => patch.Ordered
  | set _ value => value.Ordered
  | addToSet _ values => ∀ v ∈ values, v.Ordered
  | _ => True

theorem isDocument_setStatus (s : StatusInfo) (h : doc.IsDocument) : (setStatus s doc).IsDocument :=
  ((h.set _ (by trivial)).set _ (by trivial)).set _ (by trivial)

theorem Ordered.apply (hm : m.Ordered) (h : doc.IsDocument) : (m.apply doc).IsDocument := by
  cases m with
  | merge patch => exact hm.merge h.ordered
  | mergeIfAbsent patch => exact Value.Ordered.mergeAbsent hm h.ordered
  | set field value => exact h.writeAt (fun _ _ => hm) (Path.keys_ne_nil field)
  | unset field => exact h.eraseAt _
  | addToSet field values => exact h.writeAt (fun _ => Value.Ordered.addEach hm) (Path.keys_ne_nil field)
  | removeWhere field key values =>
    exact h.adjustAt (fun _ => Value.Ordered.dropWhere key values) (Path.keys_ne_nil field)
  | setRole role address granted =>
    unfold Mutation.apply
    dsimp only
    split
    · refine h.writeAt (fun _ => Value.Ordered.addEach ?_) (Path.keys_ne_nil _)
      intro v hv
      rw [List.mem_singleton.1 hv]
      trivial
    · exact h.adjustAt (fun _ => Value.Ordered.dropEqual _) (Path.keys_ne_nil _)
  | fee write => exact write.isDocument_apply h
  | latchStatus signal => exact isDocument_setStatus _ h

theorem isDocument_applyAll (hms : ∀ m ∈ ms, m.Ordered) (h : doc.IsDocument) : (applyAll ms doc).IsDocument :=
  List.foldlRecOn _ _ h fun _ hd m hm => (hms m hm).apply hd

/-- Ordered documents are told apart by their fields. -/
theorem applyAll_twice (hms : ∀ m ∈ ms, m.Ordered) (h : doc.IsDocument)
    (same : ∀ key, (applyAll ms (applyAll ms doc)).get? key = (applyAll ms doc).get? key) :
    applyAll ms (applyAll ms doc) = applyAll ms doc := by
  have honce := isDocument_applyAll hms h
  exact (isDocument_applyAll hms honce).record.ext honce.record same

end Mutation

namespace WriteAction

def Ordered : WriteAction → Prop
  | overwrite doc => doc.IsDocument
  | upsert ms => ∀ m ∈ ms, m.Ordered
  | update ms => ∀ m ∈ ms, m.Ordered
  | delete => True

variable {action : WriteAction} {stored : Option Value}

/-- An action that writes values in order leaves a document in order. -/
theorem Ordered.isDocument_apply (ha : action.Ordered) (h : ∀ doc, stored = some doc → doc.IsDocument)
    {doc : Value} (hd : action.apply stored = some doc) : doc.IsDocument := by
  cases action with
  | overwrite new =>
    obtain rfl := Option.some.inj hd
    exact ha
  | upsert ms =>
    obtain rfl := Option.some.inj hd
    exact Mutation.isDocument_applyAll ha (Value.isDocument_getD h)
  | update ms =>
    obtain ⟨old, ho, rfl⟩ := Option.map_eq_some_iff.1 hd
    exact Mutation.isDocument_applyAll ha (h old ho)
  | delete => cases hd

end WriteAction
end ChainIndex
