import ChainIndex.Proofs.Write.Touch

/-!
Changes below one field. Mutations that touch the fields of one subdocument, and all other fields of the
document, change nothing more when they are made again.
-/
namespace ChainIndex

namespace Value

variable {old : Option Value} {key : String}

def under (old : Option Value) (key : String) : Option Value := old.bind (·.get? key)

@[simp] theorem under_none (key : String) : under none key = none := rfl

@[simp] theorem under_some (v : Value) (key : String) : under (some v) key = v.get? key := rfl

theorem get?_getD_null (old : Option Value) (key : String) : (old.getD .null).get? key = under old key := by
  cases old <;> rfl

theorem get?_getD_empty (old : Option Value) (key : String) : (old.getD .empty).get? key = under old key := by
  cases old <;> rfl

end Value

/-- A change of a field by its own fields: each of those is touched in one of the three ways, and whatever
is not left as it is becomes an object. -/
structure Inward (g : Option Value → Option Value) : Prop where
  shape : ∀ old, g old = old ∨ ∃ fields, g old = some (.obj fields)
  ordered : ∀ old, (∀ w, old = some w → w.Ordered) → ∀ w, g old = some w → w.Ordered
  touches : ∀ key, ∃ ts : List Touch, ∀ old,
    Value.under (g old) key = ts.foldl (fun old t => t.apply old) (Value.under old key)

namespace Inward

variable {f g : Option Value → Option Value} {old : Option Value}

theorem id : Inward fun old => old := ⟨fun _ => .inl rfl, fun _ h => h, fun _ => ⟨[], fun _ => rfl⟩⟩

theorem comp (hg : Inward g) (hf : Inward f) : Inward fun old => g (f old) := by
  refine ⟨fun old => ?_, fun old h => hg.ordered _ (hf.ordered old h), fun key => ?_⟩
  · rcases hg.shape (f old) with hsame | hobj
    · rw [hsame]
      exact hf.shape old
    · exact .inr hobj
  · obtain ⟨ts, hts⟩ := hf.touches key
    obtain ⟨us, hus⟩ := hg.touches key
    exact ⟨ts ++ us, fun old => by rw [hus, hts, List.foldl_append]⟩

/-- A change that leaves something leaves something of what it left. -/
theorem isSome (hg : Inward g) {w : Value} (h : old = some w) : (g old).isSome = true := by
  rcases hg.shape old with hsame | ⟨fields, hobj⟩
  · rw [hsame, h]
    rfl
  · rw [hobj]
    rfl

/-- The change, made again, changes nothing more. -/
theorem apply_apply (hg : Inward g) (h : ∀ w, old = some w → w.Ordered) : g (g old) = g old := by
  rcases hg.shape old with hsame | ⟨once, honce⟩
  · rw [hsame, hsame]
  rcases hg.shape (g old) with hsame | ⟨twice, htwice⟩
  · exact hsame
  have hordered := hg.ordered old h
  have ho := hordered _ honce
  have ht := hg.ordered _ hordered _ htwice
  rw [htwice, honce]
  refine congrArg some ?_
  refine (Value.isDocument_obj ht.1 ht.2).record.ext (Value.isDocument_obj ho.1 ho.2).record fun key => ?_
  obtain ⟨ts, hts⟩ := hg.touches key
  have hsub := hts (g old)
  rw [htwice, hts old, Touch.foldl_twice, ← hts old, honce] at hsub
  exact hsub

section Changes

variable {sub : String}

/-- A field of the field is written, and an object is made where there is none. -/
theorem writeAt {f : Value → Value} {t : Touch} (ht : ∀ old, some (f (old.getD .null)) = t.apply old)
    (hf : ∀ w : Value, w.Ordered → (f w).Ordered) (sub : String) :
    Inward fun old => some ((old.getD .null).writeAt f [sub]) := by
  refine ⟨fun old => .inr ⟨_, rfl⟩, fun old h w hw => ?_, fun key => ?_⟩
  · obtain rfl := Option.some.inj hw
    refine Value.Ordered.writeAt hf _ ?_
    cases old with
    | none => trivial
    | some v => exact h v rfl
  · by_cases hk : sub = key
    · subst hk
      refine ⟨[t], fun old => ?_⟩
      rw [Value.under_some, Value.get?_writeAt_self, Value.get?_getD_null]
      exact ht _
    · refine ⟨[], fun old => ?_⟩
      rw [Value.under_some, Value.get?_writeAt_of_ne _ hk, Value.get?_getD_null]
      rfl

/-- A field of the field is taken away. -/
theorem eraseKey (sub : String) : Inward fun old => old.map (·.eraseKey sub) := by
  refine ⟨fun old => ?_, fun old h w hw => ?_, fun key => ?_⟩
  · cases old with
    | none => exact .inl rfl
    | some v =>
      cases v with
      | obj fields => exact .inr ⟨_, rfl⟩
      | _ => exact .inl rfl
  · obtain ⟨v, hv, rfl⟩ := Option.map_eq_some_iff.1 hw
    exact (h v hv).eraseKey sub
  · by_cases hk : sub = key
    · refine ⟨[.sets none], fun old => ?_⟩
      cases old with
      | none => rfl
      | some v => simp [Value.get?_eraseKey, hk, Touch.apply]
    · refine ⟨[], fun old => ?_⟩
      cases old with
      | none => rfl
      | some v => simp [Value.get?_eraseKey, hk]

theorem const {value : Value} (hv : value.IsDocument) : Inward fun _ => some value := by
  refine ⟨fun _ => .inr ?_, fun _ _ w hw => Option.some.inj hw ▸ hv.ordered, fun key => ?_⟩
  · obtain ⟨fields, rfl, -⟩ := hv.record
    exact ⟨fields, rfl⟩
  · exact ⟨[.sets (value.get? key)], fun _ => rfl⟩

/-- A flat patch is merged into the field. -/
theorem merge {patch : Value} (hp : patch.IsFlat) (hd : patch.IsDocument) :
    Inward fun old => some (patch.overlay old) := by
  refine ⟨fun old => .inr ?_, fun old h w hw => ?_, fun key => ?_⟩
  · obtain ⟨news, rfl, -⟩ := hd.record
    cases old with
    | none => exact ⟨news, rfl⟩
    | some v =>
      cases v with
      | obj fields => exact ⟨Value.mergeFields news fields, by simp [Value.merge]⟩
      | _ => exact ⟨news, by simp [Value.merge]⟩
  · obtain rfl := Option.some.inj hw
    cases old with
    | none => exact hd.ordered
    | some v => exact (hd.merge (h v rfl)).ordered
  · have hget (old : Option Value) : Value.under (some (patch.overlay old)) key =
        (patch.get? key).or (Value.under old key) := by
      cases old with
      | none => simp
      | some v => exact Value.get?_merge hp v key
    cases hk : patch.get? key with
    | none => exact ⟨[], fun old => by rw [hget, hk]; rfl⟩
    | some value => exact ⟨[.sets (some value)], fun old => by rw [hget, hk]; rfl⟩

end Changes

end Inward

namespace Mutation

variable {m : Mutation} {ms : List Mutation} {key : String}

/-- The mutation writes values in order, changes the field `key` by its own fields, and touches all others
in one of the three ways. -/
structure Nested (key : String) (m : Mutation) : Prop where
  ordered : m.Ordered
  beside : ∀ other, key ≠ other → ∃ t, m.Touches other t
  below : ∃ g, Inward g ∧ ∀ doc, (m.apply doc).get? key = g (doc.get? key)

theorem Simple.nested (h : m.Simple) (hk : m.Avoids key) : m.Nested key :=
  ⟨h.ordered, fun other _ => h.touches other, _, Inward.id, hk⟩

theorem exists_inward (h : ∀ m ∈ ms, m.Nested key) :
    ∃ g, Inward g ∧ ∀ doc, (applyAll ms doc).get? key = g (doc.get? key) := by
  induction ms with
  | nil => exact ⟨_, Inward.id, fun _ => rfl⟩
  | cons m rest ih =>
    obtain ⟨hm, hrest⟩ := List.forall_mem_cons.1 h
    obtain ⟨f, hf, hget⟩ := hm.below
    obtain ⟨g, hg, hgetg⟩ := ih hrest
    exact ⟨_, hg.comp hf, fun doc => by rw [applyAll_cons, hgetg, hget]⟩

theorem settle_of_nested (h : ∀ m ∈ ms, m.Nested key) : Settle ms := by
  refine fun doc hd => applyAll_twice (fun m hm => (h m hm).ordered) hd fun other => ?_
  by_cases hk : key = other
  · subst hk
    obtain ⟨g, hg, hget⟩ := exists_inward h
    rw [hget, hget, hg.apply_apply fun w hw => hd.ordered.get? hw]
  · exact get?_applyAll_twice (fun m hm => (h m hm).beside other hk) doc

/-- The field may be filled as a whole before it is changed. -/
theorem settle_fill_of_nested {patch : Value} (hp : patch.Ordered) (h : ∀ m ∈ ms, m.Nested key) :
    Settle (mergeIfAbsent patch :: ms) := by
  have hordered : ∀ m ∈ mergeIfAbsent patch :: ms, m.Ordered :=
    List.forall_mem_cons.2 ⟨hp, fun m hm => (h m hm).ordered⟩
  refine fun doc hd => applyAll_twice hordered hd fun other => ?_
  by_cases hk : key = other
  · subst hk
    obtain ⟨g, hg, hget⟩ := exists_inward h
    have hfill (doc : Value) : (applyAll (mergeIfAbsent patch :: ms) doc).get? key =
        g ((doc.get? key).or (patch.get? key)) := by
      rw [applyAll_cons, hget, touches_mergeIfAbsent patch key doc]
      rfl
    have hold : ∀ w, (doc.get? key).or (patch.get? key) = some w → w.Ordered := fun w hw =>
      (Option.or_eq_some_iff.1 hw).elim hd.ordered.get? fun h => hp.get? h.2
    -- once filled, the field is there
    have hfilled (old : Option Value) :
        (g (old.or (patch.get? key))).or (patch.get? key) = g (old.or (patch.get? key)) := by
      cases hv : patch.get? key with
      | none => rw [Option.or_none, Option.or_none]
      | some v =>
        obtain ⟨w, hw⟩ : ∃ w, old.or (some v) = some w := by cases old <;> exact ⟨_, rfl⟩
        obtain ⟨x, hx⟩ := Option.isSome_iff_exists.1 (hg.isSome hw)
        rw [hx]
        rfl
    rw [hfill, hfill, hfilled, hg.apply_apply hold]
  · refine get?_applyAll_twice (List.forall_mem_cons.2 ⟨⟨_, touches_mergeIfAbsent patch other⟩, ?_⟩) doc
    exact fun m hm => (h m hm).beside other hk

inductive Below (key : String) : Mutation → Prop
  | whole {field : String} {value : Value} :
      Path.keys field = [key] → value.IsDocument → Below key (.set field value)
  | set {field sub : String} {value : Value} :
      Path.keys field = [key, sub] → value.Ordered → Below key (.set field value)
  | unset {field sub : String} : Path.keys field = [key, sub] → Below key (.unset field)
  | addToSet {field sub : String} {values : List Value} :
      Path.keys field = [key, sub] → (∀ v ∈ values, v.Ordered) → Below key (.addToSet field values)
  | merge {patch : Value} : patch.IsFlat → patch.IsDocument → Below key (.merge (.record [(key, patch)]))

theorem Below.avoids (h : m.Below key) {other : String} (hk : key ≠ other) : m.Avoids other := by
  cases h with
  | whole hf hv => exact avoids_set hf hk _
  | set hf hv => exact avoids_set hf hk _
  | unset hf => exact avoids_unset hf hk
  | addToSet hf hv => exact avoids_addToSet hf hk _
  | merge hp hd => exact avoids_merge_singleton hk _

theorem Below.ordered (h : m.Below key) : m.Ordered := by
  cases h with
  | whole hf hv => exact hv.ordered
  | set hf hv => exact hv
  | unset hf => trivial
  | addToSet hf hv => exact hv
  | merge hp hd => exact Value.isDocument_record (List.forall_mem_singleton.2 hd.ordered)

/-- A mutation below a field changes it by its own fields. -/
theorem Below.exists_inward (h : m.Below key) :
    ∃ g, Inward g ∧ ∀ doc, (m.apply doc).get? key = g (doc.get? key) := by
  cases h with
  | whole hf hv =>
    refine ⟨_, Inward.const hv, fun doc => ?_⟩
    rw [apply, hf, Value.get?_writeAt_self]
    rfl
  | @set field sub value hf hv =>
    have hsets (old : Option Value) : some value = (Touch.sets (some value)).apply old := rfl
    refine ⟨_, Inward.writeAt hsets (fun _ _ => hv) sub, fun doc => ?_⟩
    rw [apply, hf, Value.get?_writeAt_self]
  | @unset field sub hf =>
    refine ⟨_, Inward.eraseKey sub, fun doc => ?_⟩
    have herase : doc.eraseAt [key, sub] = doc.adjustAt (Value.eraseKey sub) [key] := rfl
    rw [apply, hf, herase, Value.get?_adjustAt_self]
    rfl
  | @addToSet field sub values hf hv =>
    have hadds (old : Option Value) : some (Value.addEach values (old.getD .null)) = (Touch.adds values).apply old := rfl
    refine ⟨_, Inward.writeAt hadds (fun _ => Value.Ordered.addEach hv) sub, fun doc => ?_⟩
    rw [apply, hf, Value.get?_writeAt_self]
  | merge hp hd =>
    refine ⟨_, Inward.merge hp hd, fun doc => ?_⟩
    rw [get?_merge_singleton, if_pos rfl]

theorem Below.nested (h : m.Below key) : m.Nested key :=
  ⟨h.ordered, fun _ hk => ⟨_, (h.avoids hk).touches⟩, h.exists_inward⟩

end Mutation
end ChainIndex
