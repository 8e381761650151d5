import ChainIndex.Proofs.Write.Touch

/-!
Edits of arrays at the ends of paths. One edit may make the way to its array, in place of whatever
stands there, and another may only change an array that it finds. Of two edits at different paths the
later one overrides what the earlier did in its way.
-/
namespace ChainIndex

namespace Path

/-- The keys tell the path. -/
theorem keys_injective {path other : String} (h : keys path = keys other) : path = other := by
  have hparts : Text.splitAll '.' path.toList = Text.splitAll '.' other.toList :=
    (List.map_inj_right fun _ _ => String.ofList_injective).1 h
  exact String.toList_injective (Text.splitAll_injective '.' hparts)

theorem keys_of_not_mem {path : String} (h : '.' ∉ path.toList) : keys path = [path] := by
  rw [keys, Text.splitAll_of_not_mem h, List.map_singleton, String.ofList_toList]

/-- A key without a dot, and what comes after one. -/
theorem keys_append {first : String} (h : '.' ∉ first.toList) (rest : String) :
    keys (first ++ "." ++ rest) = first :: keys rest := by
  have hlist : (first ++ "." ++ rest).toList = first.toList ++ '.' :: rest.toList := by
    simp [String.toList_append]
  rw [keys, hlist, Text.splitAll_append h, List.map_cons, String.ofList_toList, keys]

/-- A path without a dot is one key; any other has a key before its first dot. -/
theorem eq_append_of_mem {path : String} (h : '.' ∈ path.toList) :
    ∃ first rest, '.' ∉ first.toList ∧ path = first ++ "." ++ rest := by
  obtain ⟨first, rest, hpath, hfirst⟩ := List.eq_append_cons_of_mem h
  refine ⟨String.ofList first, String.ofList rest, by rwa [String.toList_ofList], String.toList_injective ?_⟩
  simp [hpath, String.toList_append, String.toList_ofList]

theorem lt_append (first rest : String) : first < first ++ "." ++ rest := by
  change first.toList < (first ++ "." ++ rest).toList
  have hrest : [] < '.' :: rest.toList := List.nil_lt_cons _ _
  have happend : first.toList ++ [] < first.toList ++ '.' :: rest.toList := List.append_left_lt hrest
  simpa [String.toList_append] using happend

theorem keys_rolePath (role : String) : keys (Mutation.rolePath role) = "roles" :: keys role := by
  have hroles : '.' ∉ "roles".toList := by decide
  exact keys_append hroles role

end Path

theorem Dict.Sorted.insert_eq_self {α : Type} {d : Dict α} (h : d.Sorted) {key : String} {v : α}
    (hf : d.find? key = some v) : d.insert key v = d := by
  refine Dict.Sorted.ext (h.insert key v) h fun name => ?_
  rw [Dict.find?_insert]
  split
  · next hk => rw [← hk, hf]
  · rfl

namespace Value

def update (key : String) (f : Option Value → Option Value) (v : Value) : Value :=
  match f (v.get? key) with
  | some w => .obj (Dict.insert v.fieldsOrEmpty key w)
  | none => v

variable {f g : Option Value → Option Value} {v : Value} {key other : String}

theorem update_of_none (h : f (v.get? key) = none) : v.update key f = v := by
  unfold update
  rw [h]

theorem update_of_some {w : Value} (h : f (v.get? key) = some w) :
    v.update key f = .obj (Dict.insert v.fieldsOrEmpty key w) := by
  unfold update
  rw [h]

/-- Two updates of a key are one, if none of them takes a value away. -/
theorem update_update (hf : ∀ old, f old = none → old = none) (hg : ∀ old, g old = none → old = none)
    (v : Value) : (v.update key g).update key f = v.update key (f ∘ g) := by
  cases hw : g (v.get? key) with
  | none =>
    have hnone := hg _ hw
    rw [update_of_none hw]
    unfold update
    rw [Function.comp_apply, hw, hnone]
  | some w =>
    have hget : (Value.obj (Dict.insert v.fieldsOrEmpty key w)).get? key = some w := by
      rw [get?_obj, Dict.find?_insert, if_pos rfl]
    rw [update_of_some hw]
    cases hx : f (some w) with
    | none => cases hf _ hx
    | some x =>
      have hcomp : (f ∘ g) (v.get? key) = some x := by rw [Function.comp_apply, hw, hx]
      rw [update_of_some (hget ▸ hx), update_of_some hcomp, fieldsOrEmpty, Dict.insert_insert]

theorem get?_update_of_ne (h : key ≠ other) (f : Option Value → Option Value) (v : Value) :
    (v.update key f).get? other = v.get? other := by
  unfold update
  split
  · rw [get?_obj, Dict.find?_insert, if_neg h, get?_eq_find? v]
  · rfl

/-- Updates of different keys go in any order. -/
theorem update_comm (h : key ≠ other) (f g : Option Value → Option Value) (v : Value) :
    (v.update other g).update key f = (v.update key f).update other g := by
  have hkey := get?_update_of_ne (Ne.symm h) g v
  have hother := get?_update_of_ne h f v
  cases hw : g (v.get? other) with
  | none => rw [update_of_none hw, update_of_none (v := v.update key f) (by rw [hother, hw])]
  | some w =>
    cases hx : f (v.get? key) with
    | none => rw [update_of_none hx, update_of_none (v := v.update other g) (by rw [hkey, hx])]
    | some x =>
      have hfirst : (v.update other g).update key f =
          .obj (Dict.insert (v.update other g).fieldsOrEmpty key x) := update_of_some (by rw [hkey, hx])
      have hsecond : (v.update key f).update other g =
          .obj (Dict.insert (v.update key f).fieldsOrEmpty other w) := update_of_some (by rw [hother, hw])
      rw [hfirst, hsecond, update_of_some hw, update_of_some hx, fieldsOrEmpty, fieldsOrEmpty,
        Dict.insert_comm (Ne.symm h)]

theorem eq_arr_of_items? {items : List Value} (h : v.items? = some items) : v = .arr items := by
  cases v with
  | arr found => exact congrArg Value.arr (Option.some.inj h)
  | _ => cases h

theorem update_congr (h : f (v.get? key) = g (v.get? key)) : v.update key f = v.update key g := by
  unfold update
  rw [h]

/-- A write at the end of a way updates its first key, and so does a change of what is there. -/
theorem writeAt_cons (f : Value → Value) (key : String) (rest : List String) (v : Value) :
    v.writeAt f (key :: rest) = v.update key fun old => some ((old.getD .null).writeAt f rest) := by
  rw [writeAt, ← get?_eq_find?]
  rfl

theorem adjustAt_cons (f : Value → Value) (key : String) (rest : List String) (v : Value) :
    v.adjustAt f (key :: rest) = v.update key (Option.map (adjustAt f rest)) := by
  cases v with
  | obj fields =>
    cases hw : Dict.find? fields key with
    | none =>
      rw [update_of_none (by rw [get?_obj, hw]; rfl)]
      simp only [adjustAt, hw]
    | some w =>
      rw [update_of_some (w := w.adjustAt f rest) (by rw [get?_obj, hw]; rfl)]
      simp only [adjustAt, hw]
      rfl
  | _ => rfl

end Value

/-- A change of the items of an array: what becomes of them, and whether the array is made where there
is none. -/
structure ItemEdit where
  makes : Bool
  onItems : List Value → List Value

namespace ItemEdit

def Lawful (e : ItemEdit) : Prop := e.makes = false → e.onItems [] = []

def Ordered (e : ItemEdit) : Prop :=
  ∀ items, (∀ w ∈ items, Value.Ordered w) → ∀ w ∈ e.onItems items, w.Ordered

def andThen (e d : ItemEdit) : ItemEdit := ⟨e.makes || d.makes, d.onItems ∘ e.onItems⟩

def onArray (e : ItemEdit) (v : Value) : Value :=
  match v.items? with
  | some items => .arr (e.onItems items)
  | none => if e.makes then .arr (e.onItems []) else v

def applyAt (e : ItemEdit) : List String → Value → Value
  | [], v => e.onArray v
  | key :: rest, v => v.update key fun old =>
    match old with
    | some w => some (e.applyAt rest w)
    | none => if e.makes then some (e.applyAt rest .null) else none

def below (e : ItemEdit) (rest : List String) : Option Value → Option Value
  | some w => some (e.applyAt rest w)
  | none => if e.makes then some (e.applyAt rest .null) else none

theorem applyAt_cons (e : ItemEdit) (key : String) (rest : List String) (v : Value) :
    e.applyAt (key :: rest) v = v.update key (e.below rest) := by
  rw [applyAt]
  refine congrArg (Value.update key · v) (funext fun old => ?_)
  cases old <;> rfl

/-- No edit takes a value away. -/
theorem below_eq_none (e : ItemEdit) (rest : List String) (old : Option Value) (h : e.below rest old = none) :
    old = none := by
  cases old with
  | none => rfl
  | some w => cases h

/-- An edit that makes nothing finds nothing in null. -/
theorem applyAt_null {e : ItemEdit} (h : e.makes = false) (keys : List String) : e.applyAt keys .null = .null := by
  cases keys with
  | nil => simp [applyAt, onArray, Value.items?, h]
  | cons key rest =>
    rw [applyAt_cons]
    refine Value.update_of_none ?_
    change (if e.makes then some (e.applyAt rest .null) else none) = none
    simp [h]

variable {e d : ItemEdit} {v : Value}

theorem onArray_of_items {items : List Value} (h : v.items? = some items) :
    e.onArray v = .arr (e.onItems items) := by
  unfold onArray
  rw [h]

theorem onArray_of_none (h : v.items? = none) :
    e.onArray v = if e.makes then .arr (e.onItems []) else v := by
  unfold onArray
  rw [h]

theorem onArray_arr (e : ItemEdit) (items : List Value) : e.onArray (.arr items) = .arr (e.onItems items) := rfl

theorem onArray_andThen (he : e.Lawful) (v : Value) : (e.andThen d).onArray v = d.onArray (e.onArray v) := by
  cases hi : v.items? with
  | some items =>
    rw [onArray_of_items hi, onArray_of_items hi]
    rfl
  | none =>
    rw [onArray_of_none hi, onArray_of_none hi]
    cases hm : e.makes with
    | true => simp [andThen, hm, onArray_arr]
    | false => simp [andThen, hm, onArray_of_none hi, he hm]

/-- Two edits of one array are made one after the other wherever the array is. -/
theorem below_andThen_of {rest : List String}
    (h : ∀ v, (e.andThen d).applyAt rest v = d.applyAt rest (e.applyAt rest v)) (old : Option Value) :
    (e.andThen d).below rest old = d.below rest (e.below rest old) := by
  cases old with
  | some w => exact congrArg some (h w)
  | none =>
    cases hm : e.makes with
    | true => simp [below, andThen, hm, ← h]
    | false =>
      have hnull := h .null
      rw [applyAt_null hm] at hnull
      simp [below, andThen, hm, ← hnull]

/-- Two edits at one path are one. -/
theorem applyAt_andThen (he : e.Lawful) (keys : List String) (v : Value) :
    (e.andThen d).applyAt keys v = d.applyAt keys (e.applyAt keys v) := by
  induction keys generalizing v with
  | nil => exact onArray_andThen he v
  | cons key rest ih =>
    rw [applyAt_cons, applyAt_cons, applyAt_cons, Value.update_update (below_eq_none _ _) (below_eq_none _ _)]
    exact Value.update_congr (below_andThen_of ih _)

theorem below_andThen (he : e.Lawful) (rest : List String) (old : Option Value) :
    (e.andThen d).below rest old = d.below rest (e.below rest old) :=
  below_andThen_of (applyAt_andThen he rest) old

/-- An edit that settles at once does so wherever the array is. -/
theorem below_below_of {rest : List String} (h : ∀ v, e.applyAt rest (e.applyAt rest v) = e.applyAt rest v)
    (old : Option Value) : e.below rest (e.below rest old) = e.below rest old := by
  cases old with
  | some w => exact congrArg some (h w)
  | none =>
    cases hm : e.makes with
    | true => simp [below, hm, h]
    | false => simp [below, hm]

section Twice

variable (idem : ∀ items, e.onItems (e.onItems items) = e.onItems items)

include idem

theorem onArray_onArray (v : Value) : e.onArray (e.onArray v) = e.onArray v := by
  cases hi : v.items? with
  | some items => rw [onArray_of_items hi, onArray_arr, idem]
  | none =>
    rw [onArray_of_none hi]
    cases hm : e.makes with
    | true => simp [onArray_arr, idem]
    | false => simp [onArray_of_none hi, hm]

theorem applyAt_applyAt (keys : List String) (v : Value) :
    e.applyAt keys (e.applyAt keys v) = e.applyAt keys v := by
  induction keys generalizing v with
  | nil => exact onArray_onArray idem v
  | cons key rest ih =>
    rw [applyAt_cons, applyAt_cons, Value.update_update (below_eq_none _ _) (below_eq_none _ _)]
    exact Value.update_congr (below_below_of ih _)

theorem below_below (rest : List String) (old : Option Value) :
    e.below rest (e.below rest old) = e.below rest old :=
  below_below_of (applyAt_applyAt idem rest) old

end Twice

/-- No array is on the way of an edit that was made. -/
theorem applyAt_arr (e : ItemEdit) (key : String) (rest : List String) (items : List Value) :
    e.applyAt (key :: rest) (.arr items) =
      if e.makes then .obj [(key, e.applyAt rest .null)] else .arr items := by
  rw [applyAt_cons]
  cases hm : e.makes with
  | true => simp [Value.update, below, hm, Value.get?, Value.fields?, Value.fieldsOrEmpty, Dict.insert]
  | false => simp [Value.update, below, hm, Value.get?, Value.fields?]

theorem items?_applyAt_cons (e : ItemEdit) (key : String) (rest : List String) (h : v.items? = none) :
    (e.applyAt (key :: rest) v).items? = none := by
  rw [applyAt_cons]
  unfold Value.update
  split
  · rfl
  · exact h

section Regular

variable (idem : ∀ items, e.onItems (e.onItems items) = e.onItems items)

include idem

/-- An edit on the way of another overrides what it did there before. -/
theorem regular_of_nil (d : ItemEdit) (key : String) (rest : List String) (v : Value) :
    e.onArray (d.applyAt (key :: rest) (e.onArray v)) = e.onArray (d.applyAt (key :: rest) v) := by
  cases hi : v.items? with
  | some items =>
    obtain rfl := Value.eq_arr_of_items? hi
    rw [onArray_arr, applyAt_arr, applyAt_arr]
    cases d.makes with
    | true => rfl
    | false => exact congrArg Value.arr (idem items)
  | none =>
    rw [onArray_of_none hi]
    cases hm : e.makes with
    | false => rfl
    | true =>
      have hright : e.onArray (d.applyAt (key :: rest) v) = .arr (e.onItems []) := by
        rw [onArray_of_none (items?_applyAt_cons d key rest hi), hm]
        rfl
      rw [hright, if_pos rfl, applyAt_arr]
      cases d.makes with
      | true => simp [onArray, Value.items?, hm]
      | false => exact congrArg Value.arr (idem [])

/-- So does an edit the way of which another is on. -/
theorem regular_of_cons (d : ItemEdit) (key : String) (rest : List String) (v : Value) :
    e.applyAt (key :: rest) (d.onArray (e.applyAt (key :: rest) v)) =
      e.applyAt (key :: rest) (d.onArray v) := by
  have htwice := applyAt_applyAt idem (key :: rest)
  cases hi : v.items? with
  | some items =>
    obtain rfl := Value.eq_arr_of_items? hi
    cases hm : e.makes with
    | false => rw [applyAt_arr, hm]; rfl
    | true =>
      have hobj (found : List Value) : e.applyAt (key :: rest) (.arr found) =
          .obj [(key, e.applyAt rest .null)] := by rw [applyAt_arr, hm, if_pos rfl]
      rw [onArray_arr, hobj, hobj]
      cases hd : d.makes with
      | true => simp [onArray, Value.items?, hd, hobj]
      | false =>
        have hsame : d.onArray (.obj [(key, e.applyAt rest .null)]) = .obj [(key, e.applyAt rest .null)] := by
          simp [onArray, Value.items?, hd]
        rw [hsame, ← hobj items, htwice]
  | none =>
    rw [onArray_of_none hi, onArray_of_none (items?_applyAt_cons e key rest hi)]
    cases d.makes with
    | true => rfl
    | false => exact htwice v

omit idem in
theorem below_regular_of {rest rest' : List String}
    (h : ∀ v : Value, v.Ordered →
      e.applyAt rest (d.applyAt rest' (e.applyAt rest v)) = e.applyAt rest (d.applyAt rest' v))
    {old : Option Value} (hold : ∀ w, old = some w → w.Ordered) :
    e.below rest (d.below rest' (e.below rest old)) = e.below rest (d.below rest' old) := by
  cases old with
  | some w => exact congrArg some (h w (hold w rfl))
  | none =>
    have hnull := h .null trivial
    cases he : e.makes with
    | false => simp [below, he]
    | true =>
      cases hm : d.makes with
      | true => simp [below, he, hm, hnull]
      | false =>
        rw [applyAt_null hm] at hnull
        simp [below, he, hm, hnull]

/-- Of edits at different paths the later one overrides what the earlier did in its way. -/
theorem applyAt_regular (d : ItemEdit) {path other : List String} (h : path ≠ other) {v : Value}
    (hv : v.Ordered) :
    e.applyAt path (d.applyAt other (e.applyAt path v)) = e.applyAt path (d.applyAt other v) := by
  induction path generalizing other v with
  | nil =>
    cases other with
    | nil => exact absurd rfl h
    | cons key rest => exact regular_of_nil idem d key rest v
  | cons key rest ih =>
    cases other with
    | nil => exact regular_of_cons idem d key rest v
    | cons key' rest' =>
      by_cases hk : key = key'
      · subst hk
        have hne : rest ≠ rest' := fun same => h (same ▸ rfl)
        have hcomp (old : Option Value) (hn : (d.below rest' ∘ e.below rest) old = none) : old = none :=
          below_eq_none e rest old (below_eq_none d rest' _ hn)
        simp only [applyAt_cons]
        rw [Value.update_update (below_eq_none _ _) (below_eq_none _ _) v,
          Value.update_update (below_eq_none _ _) hcomp,
          Value.update_update (below_eq_none _ _) (below_eq_none _ _)]
        exact Value.update_congr (below_regular_of (fun w hw => ih hne hw) fun w hw => hv.get? hw)
      · have hcomm := Value.update_comm (Ne.symm hk) (d.below rest') (e.below rest) v
        have htwice := applyAt_applyAt idem (key :: rest) (v.update key' (d.below rest'))
        simp only [applyAt_cons] at htwice ⊢
        rw [hcomm, htwice]

/-- An edit made before and after one at another path might as well be made only after it. -/
theorem below_regular (d : ItemEdit) {rest rest' : List String} (h : rest ≠ rest') {old : Option Value}
    (hold : ∀ w, old = some w → w.Ordered) :
    e.below rest (d.below rest' (e.below rest old)) = e.below rest (d.below rest' old) :=
  below_regular_of (fun _ hv => applyAt_regular idem d h hv) hold

end Regular

theorem onArray_eq_self (hm : e.makes = false) (hid : ∀ items, e.onItems items = items) (v : Value) :
    e.onArray v = v := by
  cases v with
  | arr items => rw [onArray_arr, hid]
  | _ => simp [onArray, Value.items?, hm]

/-- An edit that changes no array changes nothing. -/
theorem applyAt_eq_self (hm : e.makes = false) (hid : ∀ items, e.onItems items = items) (keys : List String)
    (hv : v.Ordered) : e.applyAt keys v = v := by
  induction keys generalizing v with
  | nil => exact onArray_eq_self hm hid v
  | cons key rest ih =>
    rw [applyAt_cons]
    cases hw : v.get? key with
    | none => exact Value.update_of_none (by simp [hw, below, hm])
    | some w =>
      rw [Value.update_of_some (w := w) (by rw [hw, below, ih (hv.get? hw)])]
      cases v with
      | obj fields => exact congrArg Value.obj (hv.sorted.insert_eq_self hw)
      | _ => cases hw

/-- An edit that changes no items changes nothing, unless it makes the array. -/
theorem below_eq_self (hm : e.makes = false) (hid : ∀ items, e.onItems items = items) (rest : List String)
    {old : Option Value} (hold : ∀ w, old = some w → w.Ordered) : e.below rest old = old := by
  cases old with
  | none => simp [below, hm]
  | some w => exact congrArg some (applyAt_eq_self hm hid rest (hold w rfl))

theorem get?_applyAt_self (e : ItemEdit) (key : String) (rest : List String) (v : Value) :
    (e.applyAt (key :: rest) v).get? key = e.below rest (v.get? key) := by
  rw [applyAt_cons]
  cases hw : e.below rest (v.get? key) with
  | none => rw [Value.update_of_none hw, below_eq_none e rest _ hw]
  | some w => rw [Value.update_of_some hw, Value.get?_obj, Dict.find?_insert, if_pos rfl]

theorem Ordered.applyAt (he : e.Ordered) (keys : List String) (hv : v.Ordered) :
    (e.applyAt keys v).Ordered := by
  have hmade : Value.Ordered (.arr (e.onItems [])) := Value.itemsOrdered_iff.2 (he [] nofun)
  induction keys generalizing v with
  | nil =>
    change (e.onArray v).Ordered
    unfold onArray
    split
    · next items hi =>
      have hitems := hv.items
      rw [hi] at hitems
      exact Value.itemsOrdered_iff.2 (he items hitems)
    · split
      · exact hmade
      · exact hv
  | cons key rest ih =>
    rw [applyAt_cons]
    unfold Value.update
    split
    · next w hw =>
      refine (hv.insert key ?_).ordered
      cases hg : v.get? key with
      | some old =>
        rw [hg] at hw
        exact Option.some.inj hw ▸ ih (hv.get? hg)
      | none =>
        rw [hg, below] at hw
        split at hw
        · exact Option.some.inj hw ▸ ih (v := .null) trivial
        · cases hw
    · exact hv

theorem Ordered.below (he : e.Ordered) (rest : List String) {old : Option Value}
    (hold : ∀ w, old = some w → w.Ordered) : ∀ w, e.below rest old = some w → w.Ordered := by
  intro w hw
  cases old with
  | some v => exact Option.some.inj hw ▸ he.applyAt rest (hold v rfl)
  | none =>
    rw [ItemEdit.below] at hw
    split at hw
    · exact Option.some.inj hw ▸ he.applyAt rest (v := .null) trivial
    · cases hw

/-- Edits are writes, or changes of what is there. -/
theorem applyAt_of_makes (hm : e.makes = true) (keys : List String) (v : Value) :
    e.applyAt keys v = v.writeAt e.onArray keys := by
  induction keys generalizing v with
  | nil => rfl
  | cons key rest ih =>
    rw [applyAt_cons, Value.writeAt_cons]
    refine Value.update_congr ?_
    cases v.get? key with
    | some w => exact congrArg some (ih w)
    | none => rw [below, if_pos hm, ih]; rfl

theorem applyAt_of_not_makes (hm : e.makes = false) (keys : List String) (v : Value) :
    e.applyAt keys v = v.adjustAt e.onArray keys := by
  induction keys generalizing v with
  | nil => rfl
  | cons key rest ih =>
    rw [applyAt_cons, Value.adjustAt_cons]
    refine Value.update_congr ?_
    cases v.get? key with
    | some w => exact congrArg some (ih w)
    | none => simp [below, hm]

end ItemEdit
end ChainIndex
