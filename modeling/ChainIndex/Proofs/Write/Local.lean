import ChainIndex.Proofs.Write.Query

/-!
Edits at the ends of dotted paths. An edit is seen at its own path, and at no path that parts from it, whatever stands
in the way of either; made again, it changes nothing.
-/
namespace ChainIndex

namespace Path

inductive Parted : List String → List String → Prop
  | here {key other : String} {rest more : List String} : key ≠ other → Parted (key :: rest) (other :: more)
  | later {key : String} {rest more : List String} : Parted rest more → Parted (key :: rest) (key :: more)

variable {keys others : List String}

theorem Parted.ne_nil (h : Parted keys others) : keys ≠ [] ∧ others ≠ [] := by
  cases h with
  | here _ => exact ⟨List.cons_ne_nil _ _, List.cons_ne_nil _ _⟩
  | later _ => exact ⟨List.cons_ne_nil _ _, List.cons_ne_nil _ _⟩

/-- Keys part unless those of one list begin the other. -/
theorem parted_of_not_prefix (hkeys : ¬keys <+: others) (hothers : ¬others <+: keys) : Parted keys others := by
  induction keys generalizing others with
  | nil => exact absurd List.nil_prefix hkeys
  | cons key rest ih =>
    cases others with
    | nil => exact absurd List.nil_prefix hothers
    | cons other more =>
      by_cases hk : key = other
      · subst hk
        have hrest := mt (List.prefix_cons_inj key).2 hkeys
        have hmore := mt (List.prefix_cons_inj key).2 hothers
        exact .later (ih hrest hmore)
      · exact .here hk

end Path

namespace Value

variable {keys others : List String}

theorem at?_cons (key : String) (rest : List String) (v : Value) : v.at? (key :: rest) = (v.get? key).bind (at? rest) :=
  rfl

/-- Nothing is behind a null that stands for a missing value. -/
theorem at?_getD_null (old : Option Value) (h : keys ≠ []) : (old.getD .null).at? keys = old.bind (at? keys) := by
  cases old with
  | some w => rfl
  | none =>
    cases keys with
    | nil => exact absurd rfl h
    | cons key rest => rfl

section Written

/-- A write changes what is there, or a null where there is nothing. -/
theorem at?_writeAt_self (f : Value → Value) (keys : List String) (v : Value) :
    (v.writeAt f keys).at? keys = some (f ((v.at? keys).getD .null)) := by
  induction keys generalizing v with
  | nil => rfl
  | cons key rest ih =>
    rw [at?_cons, get?_writeAt_self, Option.bind_some, ih, at?_cons]
    cases v.get? key with
    | some w => rfl
    | none => cases rest <;> rfl

theorem at?_writeAt_of_parted (f : Value → Value) (h : Path.Parted keys others) (v : Value) :
    (v.writeAt f keys).at? others = v.at? others := by
  induction h generalizing v with
  | here hne => rw [at?_cons, get?_writeAt_of_ne f hne, at?_cons]
  | later hparted ih =>
    rw [at?_cons, get?_writeAt_self, Option.bind_some, ih, at?_getD_null _ hparted.ne_nil.2, at?_cons]

/-- Two writes at one place are one. -/
theorem writeAt_writeAt (f g : Value → Value) (keys : List String) (v : Value) :
    (v.writeAt f keys).writeAt g keys = v.writeAt (g ∘ f) keys := by
  induction keys generalizing v with
  | nil => rfl
  | cons key rest ih =>
    rw [writeAt_cons, writeAt_cons, writeAt_cons, update_update (fun _ hnone => absurd hnone (Option.some_ne_none _))
      fun _ hnone => absurd hnone (Option.some_ne_none _)]
    exact update_congr (congrArg some (ih _))

theorem writeAt_twice {f : Value → Value} (hf : ∀ w, f (f w) = f w) (keys : List String) (v : Value) :
    (v.writeAt f keys).writeAt f keys = v.writeAt f keys :=
  (writeAt_writeAt f f keys v).trans (congrArg (v.writeAt · keys) (funext hf))

end Written

section Adjusted

theorem at?_adjustAt_self (f : Value → Value) (keys : List String) (v : Value) :
    (v.adjustAt f keys).at? keys = (v.at? keys).map f := by
  induction keys generalizing v with
  | nil => rfl
  | cons key rest ih =>
    rw [at?_cons, get?_adjustAt_self, at?_cons]
    cases v.get? key with
    | some w => exact ih w
    | none => rfl

theorem at?_adjustAt_of_parted (f : Value → Value) (h : Path.Parted keys others) (v : Value) :
    (v.adjustAt f keys).at? others = v.at? others := by
  induction h generalizing v with
  | here hne => rw [at?_cons, get?_adjustAt_of_ne f hne, at?_cons]
  | @later key _ _ _ ih =>
    rw [at?_cons, get?_adjustAt_self, at?_cons]
    cases v.get? key with
    | some w => exact ih w
    | none => rfl

/-- A change at a path that settles at once does so in the document. -/
theorem adjustAt_twice {f : Value → Value} (hf : ∀ w, f (f w) = f w) (keys : List String) (v : Value) :
    (v.adjustAt f keys).adjustAt f keys = v.adjustAt f keys := by
  induction keys generalizing v with
  | nil => exact hf v
  | cons key rest ih =>
    have keeps (old : Option Value) (hold : old.map (adjustAt f rest) = none) : old = none :=
      Option.map_eq_none_iff.1 hold
    rw [adjustAt_cons, adjustAt_cons, update_update keeps keeps]
    refine update_congr ?_
    rw [Function.comp_apply, Option.map_map]
    exact Option.map_congr fun w _ => ih w

end Adjusted

section Erased

/-- Only at the last key is anything erased. -/
theorem get?_eraseAt_self (key next : String) (more : List String) (v : Value) :
    (v.eraseAt (key :: next :: more)).get? key = (v.get? key).map (eraseAt (next :: more)) := by
  unfold eraseAt
  rw [List.getLast?_cons_cons, List.dropLast_cons_cons]
  cases hlast : (next :: more).getLast? with
  | none => exact absurd (List.getLast?_eq_none_iff.1 hlast) (List.cons_ne_nil _ _)
  | some last => exact get?_adjustAt_self _ _ _ v

theorem at?_eraseAt_self (h : keys ≠ []) (v : Value) : (v.eraseAt keys).at? keys = none := by
  induction keys generalizing v with
  | nil => exact absurd rfl h
  | cons key rest ih =>
    rw [at?_cons]
    cases rest with
    | nil =>
      have herased : (v.eraseKey key).get? key = none := by rw [get?_eraseKey, if_pos rfl]
      exact Option.bind_eq_none_iff.2 fun w hw => by cases herased.symm.trans hw
    | cons next more =>
      rw [get?_eraseAt_self]
      cases v.get? key with
      | some w => exact ih (List.cons_ne_nil _ _) w
      | none => rfl

theorem at?_eraseAt_of_parted (h : Path.Parted keys others) (v : Value) :
    (v.eraseAt keys).at? others = v.at? others := by
  induction h generalizing v with
  | here hne => rw [at?_cons, get?_eraseAt_of_ne hne, at?_cons]
  | @later key rest _ hparted ih =>
    rw [at?_cons, at?_cons]
    cases rest with
    | nil => exact absurd rfl hparted.ne_nil.1
    | cons next more =>
      rw [get?_eraseAt_self]
      cases v.get? key with
      | some w => exact ih w
      | none => rfl

theorem eraseAt_twice (keys : List String) (v : Value) : (v.eraseAt keys).eraseAt keys = v.eraseAt keys := by
  unfold eraseAt
  cases keys.getLast? with
  | some key => exact adjustAt_twice (fun w => eraseKey_eraseKey w key) keys.dropLast v
  | none => rfl

end Erased

section Items

/-- To the items are added the values that are not among them, and of equal values the first. -/
theorem foldl_addItem (values items : List Value) :
    values.foldl addItem items = items ++ (values.filter fun w => !w.isAmong items).eraseDupsBy same := by
  induction values generalizing items with
  | nil => simp
  | cons w rest ih =>
    rw [List.foldl_cons, ih, addItem]
    cases hw : w.isAmong items with
    | true => simp [hw]
    | false =>
      have hrest : (rest.filter fun x => !x.isAmong (items ++ [w])) =
          (rest.filter fun x => !x.isAmong items).filter fun x => x.same w = false := by
        simp [List.filter_filter, isAmong, Bool.and_comm]
      simp [hw, hrest, List.eraseDupsBy_cons]

theorem dropWhere_arr (key : String) (values items : List Value) :
    dropWhere key values (.arr items) =
      .arr (items.filter fun item => (item.get? key).all fun w => !w.isAmong values) := by
  refine congrArg Value.arr (List.filter_congr fun item _ => ?_)
  cases item.get? key <;> rfl

theorem dropWhere_twice (key : String) (values : List Value) (v : Value) :
    dropWhere key values (dropWhere key values v) = dropWhere key values v := by
  cases v with
  | arr items => simp [dropWhere_arr, List.filter_filter]
  | _ => rfl

theorem dropEqual_twice (value v : Value) : dropEqual value (dropEqual value v) = dropEqual value v := by
  cases v with
  | arr items => simp [dropEqual, List.filter_filter]
  | _ => rfl

end Items

end Value

namespace Mutation

def path? : Mutation → Option String
  | set path _ | unset path | addToSet path _ | removeWhere path _ _ => some path
  | setRole role _ _ => some (rolePath role)
  | _ => none

variable {m : Mutation} {path other : String}

/-- An edit at one path leaves the value at every path that parts from it. -/
theorem lookup?_apply_of_parted (hm : m.path? = some path) (h : Path.Parted (Path.keys path) (Path.keys other))
    (doc : Value) : (m.apply doc).lookup? other = doc.lookup? other := by
  cases m with
  | set field value =>
    obtain rfl := Option.some.inj hm
    exact Value.at?_writeAt_of_parted _ h doc
  | unset field =>
    obtain rfl := Option.some.inj hm
    exact Value.at?_eraseAt_of_parted h doc
  | addToSet field values =>
    obtain rfl := Option.some.inj hm
    exact Value.at?_writeAt_of_parted _ h doc
  | removeWhere field key values =>
    obtain rfl := Option.some.inj hm
    exact Value.at?_adjustAt_of_parted _ h doc
  | setRole role address granted =>
    obtain rfl := Option.some.inj hm
    cases granted with
    | true => exact Value.at?_writeAt_of_parted _ h doc
    | false => exact Value.at?_adjustAt_of_parted _ h doc
  | _ => cases hm

theorem apply_twice (hm : m.path? = some path) (doc : Value) : m.apply (m.apply doc) = m.apply doc := by
  cases m with
  | set field value => exact Value.writeAt_twice (f := fun _ => value) (fun _ => rfl) _ doc
  | unset field => exact Value.eraseAt_twice _ doc
  | addToSet field values => exact Value.writeAt_twice (Value.addEach_addEach values) _ doc
  | removeWhere field key values => exact Value.adjustAt_twice (Value.dropWhere_twice key values) _ doc
  | setRole role address granted =>
    cases granted with
    | true => exact Value.writeAt_twice (Value.addEach_addEach _) _ doc
    | false => exact Value.adjustAt_twice (Value.dropEqual_twice _) _ doc
  | _ => cases hm

/-- Edits at paths are local. At any path that neither begins the edited one nor is begun by it the document holds what
it held. At the edited path it holds the value that was set, and nothing after that was unset; an array to which values
were added goes on with those that it lacked, each once; an array from which some were removed keeps the items without
the key and those with another value there. An edit that is made again changes nothing. -/
theorem path_edits_local (path : String) (doc : Value) :
    (∀ m : Mutation, m.path? = some path →
      (∀ other, ¬Path.keys path <+: Path.keys other → ¬Path.keys other <+: Path.keys path →
        (m.apply doc).lookup? other = doc.lookup? other) ∧
      m.apply (m.apply doc) = m.apply doc) ∧
    (∀ value, ((set path value).apply doc).lookup? path = some value) ∧
    ((unset path).apply doc).lookup? path = none ∧
    (∀ values former, former = ((doc.lookup? path).bind Value.items?).getD [] →
      ((addToSet path values).apply doc).lookup? path =
        some (.arr (former ++ (values.filter fun w => !w.isAmong former).eraseDupsBy Value.same))) ∧
    ∀ key values items, doc.lookup? path = some (.arr items) →
      ((removeWhere path key values).apply doc).lookup? path =
        some (.arr (items.filter fun item => (item.get? key).all fun w => !w.isAmong values)) := by
  refine ⟨fun m hm => ⟨fun other hpath hother => ?_, apply_twice hm doc⟩, fun value => ?_, ?_, ?_, ?_⟩
  · exact lookup?_apply_of_parted hm (Path.parted_of_not_prefix hpath hother) doc
  · exact Value.at?_writeAt_self (fun _ => value) _ doc
  · exact Value.at?_eraseAt_self (Path.keys_ne_nil path) doc
  · rintro values former rfl
    rw [Value.lookup?, apply, Value.at?_writeAt_self, Value.addEach_eq, Value.foldl_addItem, Value.lookup?]
    cases doc.at? (Path.keys path) <;> rfl
  · intro key values items hitems
    rw [Value.lookup?, apply, Value.at?_adjustAt_self, ← Value.lookup?, hitems, Option.map_some, Value.dropWhere_arr]

/-- An array made behind a number, and one behind an empty key from which an item is removed. -/
theorem path_edits_local_empty_key :
    let items : List Value := [.nat 1, .obj [("k", .nat 2)], .obj [("k", .nat 3)]]
    let doc : Value := .obj [("a", .nat 5), ("b", .obj [("", .arr items)])]
    let add : Mutation := .addToSet "a..x" [.nat 7, .nat 8, .nat 7]
    let remove : Mutation := .removeWhere "b." "k" [.nat 2]
    Path.keys "a..x" = ["a", "", "x"] ∧ Path.keys "b." = ["b", ""] ∧
      (add.apply doc).lookup? "b." = doc.lookup? "b." ∧
      (add.apply doc).lookup? "a..x" = some (.arr [.nat 7, .nat 8]) ∧
      add.apply (add.apply doc) = add.apply doc ∧
      (remove.apply doc).lookup? "b." = some (.arr [.nat 1, .obj [("k", .nat 3)]]) := by
  intro items doc add remove
  have hmade : Path.keys "a..x" = ["a", "", "x"] := by decide +kernel
  have hheld : Path.keys "b." = ["b", ""] := by decide +kernel
  have hitems : doc.lookup? "b." = some (.arr items) := by
    rw [Value.lookup?, hheld]
    rfl
  have hnone : doc.lookup? "a..x" = none := by
    rw [Value.lookup?, hmade]
    rfl
  obtain ⟨hframe, -, -, hadded, -⟩ := path_edits_local "a..x" doc
  obtain ⟨hothers, htwice⟩ := hframe add rfl
  obtain ⟨-, -, -, -, hremoved⟩ := path_edits_local "b." doc
  refine ⟨hmade, hheld, hothers "b." ?_ ?_, ?_, htwice, ?_⟩
  · rw [hmade, hheld]
    decide
  · rw [hmade, hheld]
    decide
  · refine (hadded _ [] (by rw [hnone]; rfl)).trans ?_
    rfl
  · refine (hremoved "k" [.nat 2] _ hitems).trans ?_
    rfl

end Mutation
end ChainIndex
