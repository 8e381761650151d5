import ChainIndex.Proofs.Items
import ChainIndex.Store.Session

/-!
What procedures make of a store that is available and in order. They succeed, the store stays so, and
what they change is told document by document.
-/
namespace ChainIndex

variable {s t u : Store}

namespace Store

/-- Every index is available and in id order. -/
structure Usable (s : Store) : Prop where
  available : s.unavailable = []
  ordered : ∀ name, (s.index name).Sorted

theorem usable_withPageSize (n : Nat) : (withPageSize n).Usable :=
  ⟨rfl, fun _ => List.Pairwise.nil⟩

/-- A usable store is told by its documents. -/
theorem Usable.index_eq (hs : s.Usable) (ht : t.Usable) {name : String}
    (h : ∀ id, t.get? name id = s.get? name id) : t.index name = s.index name :=
  Dict.Sorted.ext (ht.ordered name) (hs.ordered name) h

theorem Usable.check (h : s.Usable) (name : String) : s.check name = .ok () := by
  simp [Store.check, h.available]

theorem index_setIndex (s : Store) (name other : String) (docs : Dict Value) :
    (s.setIndex name docs).index other = if name = other then docs else s.index other := by
  simp only [index, setIndex, Dict.find?_insert]
  split <;> rfl

theorem Usable.setIndex (h : s.Usable) (name : String) {docs : Dict Value} (hd : docs.Sorted) :
    (s.setIndex name docs).Usable := by
  refine ⟨h.available, fun other => ?_⟩
  rw [index_setIndex]
  split
  · exact hd
  · exact h.ordered other

theorem find?_applyItem (docs : Dict Value) (item : WriteItem) (id : String) :
    (applyItem docs item).find? id =
      if item.id = id then item.action.apply (docs.find? id) else docs.find? id := by
  unfold applyItem
  by_cases hid : item.id = id
  · subst hid
    cases item.action.apply (docs.find? item.id) with
    | some doc => simp [Dict.find?_insert]
    | none => simp [Dict.find?_erase]
  · cases item.action.apply (docs.find? item.id) with
    | some doc => simp [Dict.find?_insert, hid]
    | none => simp [Dict.find?_erase, hid]

theorem find?_foldl_applyItem (items : List WriteItem) (docs : Dict Value) (id : String) :
    (items.foldl applyItem docs).find? id = WriteItem.applyAt id items (docs.find? id) := by
  induction items generalizing docs with
  | nil => rfl
  | cons item rest ih => rw [List.foldl_cons, ih, find?_applyItem, WriteItem.applyAt_cons]

theorem sorted_foldl_applyItem (items : List WriteItem) {docs : Dict Value} (h : docs.Sorted) :
    (items.foldl applyItem docs).Sorted := by
  refine List.foldlRecOn _ _ h fun docs hd item _ => ?_
  unfold applyItem
  split
  · exact hd.insert _ _
  · exact hd.erase _

def upserted (s : Store) (name : String) (items : List WriteItem) : Store :=
  { s with requests := s.requests ++ [(name, items.length)] }.setIndex name
    (items.foldl applyItem (s.index name))

theorem Usable.bulkUpsert (h : s.Usable) (name : String) (items : List WriteItem) :
    s.bulkUpsert name items = .ok (s.upserted name items) := by
  unfold Store.bulkUpsert
  rw [h.check]
  rfl

theorem Usable.upserted (h : s.Usable) (name : String) (items : List WriteItem) :
    (s.upserted name items).Usable := by
  have hrecorded : { s with requests := s.requests ++ [(name, items.length)] }.Usable :=
    ⟨h.available, h.ordered⟩
  exact hrecorded.setIndex name (sorted_foldl_applyItem items (h.ordered name))

/-- A bulk request changes the documents of its items, in order, and no others. -/
theorem get?_upserted (s : Store) (index : String) (items : List WriteItem) (name id : String) :
    (s.upserted index items).get? name id =
      if index = name then WriteItem.applyAt id items (s.get? name id) else s.get? name id := by
  rw [get?, upserted, index_setIndex]
  by_cases hn : index = name
  · subst hn
    rw [if_pos rfl, if_pos rfl, find?_foldl_applyItem]
    rfl
  · rw [if_neg hn, if_neg hn]
    rfl

def without (s : Store) (name : String) (query : Query) : Store :=
  match s.indices.find? name with
  | none => s
  | some docs => s.setIndex name (docs.filter fun e => !query.selects e.2)

/-- A removal answers how many documents the query selects. -/
theorem deleteByQuery_of_check {name : String} (h : s.check name = .ok ()) (query : Query) :
    s.deleteByQuery name query = .ok ((s.selected name query).length, s.without name query) := by
  have hlength : (s.selected name query).length =
      (s.index name).length - ((s.index name).filter fun e => !query.selects e.2).length := by
    have hsplit := (s.index name).length_eq_countP_add_countP fun e => query.selects e.2
    simp only [List.countP_eq_length_filter, Bool.not_eq_true, Bool.decide_eq_false] at hsplit
    rw [selected, documents, List.filter_map, List.length_map]
    change ((s.index name).filter fun e => query.selects e.2).length = _
    omega
  unfold Store.deleteByQuery without
  rw [h, hlength, index]
  cases s.indices.find? name <;> rfl

theorem Usable.deleteByQuery (h : s.Usable) (name : String) (query : Query) :
    s.deleteByQuery name query = .ok ((s.selected name query).length, s.without name query) :=
  deleteByQuery_of_check (h.check name) query

/-- Other indices keep their documents. -/
theorem index_without (s : Store) (name : String) (query : Query) (other : String) :
    (s.without name query).index other =
      if name = other then (s.index name).filter fun e => !query.selects e.2 else s.index other := by
  unfold without
  cases hf : s.indices.find? name with
  | none =>
    have hempty : s.index name = [] := by simp [index, hf]
    by_cases hn : name = other
    · subst hn
      simp [hempty]
    · rw [if_neg hn]
  | some docs =>
    have hindex : s.index name = docs := by simp [index, hf]
    rw [hindex]
    exact s.index_setIndex name other _

theorem Usable.without (h : s.Usable) (name : String) (query : Query) : (s.without name query).Usable := by
  refine ⟨?_, fun other => ?_⟩
  · unfold Store.without
    split
    · exact h.available
    · exact h.available
  · rw [index_without]
    split
    · exact (h.ordered name).filter _
    · exact h.ordered other

theorem get?_without {index : String} (h : (s.index index).Sorted) (query : Query) (name id : String) :
    (s.without index query).get? name id =
      if index = name then (s.get? name id).filter (!query.selects ·) else s.get? name id := by
  rw [get?, index_without]
  split
  · next hn =>
    subst hn
    exact h.find?_filter_value (!query.selects ·) id
  · rfl

/-- Exactly the selected documents of the index go. -/
theorem Usable.get?_without (h : s.Usable) (index : String) (query : Query) (name id : String) :
    (s.without index query).get? name id =
      if index = name then (s.get? name id).filter (!query.selects ·) else s.get? name id :=
  Store.get?_without (h.ordered index) query name id

/-- The documents that a query selects are those stored under an id. -/
theorem Usable.any_selected (h : s.Usable) (name : String) (query : Query) (p : String → Bool) :
    (s.selected name query).any (fun doc => p doc.id) = true ↔
      ∃ id doc, s.get? name id = some doc ∧ query.selects doc = true ∧ p id = true := by
  simp only [selected, documents, List.any_eq_true, List.mem_filter, List.mem_map]
  constructor
  · rintro ⟨_, ⟨⟨⟨id, doc⟩, hm, rfl⟩, hq⟩, hp⟩
    exact ⟨id, doc, (h.ordered name).find?_of_mem hm, hq, hp⟩
  · rintro ⟨id, doc, hf, hq, hp⟩
    exact ⟨⟨id, doc⟩, ⟨⟨_, Dict.mem_of_find? hf, rfl⟩, hq⟩, hp⟩

/-- Pages hold all documents in order, whatever their size. -/
theorem flatten_pages (size : Nat) (docs : List Document) : (pages size docs).flatten = docs := by
  fun_induction pages size docs with
  | case1 => rfl
  | case2 doc rest ih => rw [List.flatten_cons, ih, List.cons_append, List.take_append_drop]

end Store

namespace Session

variable {α β σ : Type}

theorem run_bind (p : Session α) (f : α → Session β) (s : Store) :
    (p >>= f).run s = (f (p.run s).1).run (p.run s).2 :=
  runWith_bind _ p f s

theorem runWith_all_cons (answer : σ → (c : StoreCall) → c.Reply × σ) (p : Session α) (rest : List (Session α))
    (s : σ) :
    (all (p :: rest)).runWith answer s =
      ((p.runWith answer s).1 :: ((all rest).runWith answer (p.runWith answer s).2).1,
        ((all rest).runWith answer (p.runWith answer s).2).2) := by
  refine (runWith_bind answer p _ s).trans ?_
  exact runWith_bind answer (all rest) _ _

theorem run_all_cons (p : Session α) (rest : List (Session α)) (s : Store) :
    (all (p :: rest)).run s =
      ((p.run s).1 :: ((all rest).run (p.run s).2).1, ((all rest).run (p.run s).2).2) :=
  runWith_all_cons Store.answer p rest s

end Session

/-- There is a first error unless all answers are values. -/
theorem firstError_eq_ok_iff {α : Type} {outcomes : List (Except StoreError α)} :
    firstError outcomes = .ok () ↔ ∀ outcome ∈ outcomes, ∃ x, outcome = .ok x := by
  induction outcomes with
  | nil => exact ⟨nofun, fun _ => rfl⟩
  | cons outcome rest ih =>
    rw [List.forall_mem_cons]
    cases outcome with
    | ok x => exact ih.trans ⟨fun h => ⟨⟨x, rfl⟩, h⟩, And.right⟩
    | error e => exact ⟨nofun, fun h => nomatch h.1⟩

namespace StoreM

variable {α β : Type} {p : StoreM α} {x : α}

/-- The procedure succeeds with `x` and leaves the store `t`. -/
def Gives (p : StoreM α) (s : Store) (x : α) (t : Store) : Prop := Session.run p.run s = (.ok x, t)

theorem gives_pure (x : α) (s : Store) : (pure x : StoreM α).Gives s x s := rfl

theorem Gives.bind (hp : p.Gives s x t) {f : α → StoreM β} {y : β} (hf : (f x).Gives t y u) :
    (p >>= f).Gives s y u := by
  unfold Gives at *
  rw [ExceptT.run_bind, Session.run_bind, hp]
  exact hf

theorem gives_multiGet (h : s.Usable) (index : String) (ids : List String) :
    (multiGet index ids).Gives s (ids.map (s.get? index)) s := by
  have hanswer : s.multiGet index ids = .ok (ids.map (s.get? index)) := by
    unfold Store.multiGet
    rw [h.check]
    rfl
  exact congrArg (·, s) hanswer

theorem gives_bulkUpsert (h : s.Usable) (index : String) (items : List WriteItem) :
    (bulkUpsert index items).Gives s () (s.upserted index items) := by
  change ((s.answer (.bulkUpsert index items)).1, (s.answer (.bulkUpsert index items)).2) = _
  simp only [Store.answer, h.bulkUpsert]

theorem gives_scroll (h : s.Usable) (index : String) (query : Query) :
    (scroll index query).Gives s (s.selected index query) s := by
  have hpages : s.scrollPages index query = .ok (Store.pages s.pageSize (s.selected index query)) := by
    unfold Store.scrollPages
    rw [h.check]
    rfl
  have hperform : (perform (.scroll index query)).Gives s
      (Store.pages s.pageSize (s.selected index query)) s :=
    congrArg (·, s) hpages
  refine hperform.bind ?_
  rw [Store.flatten_pages]
  exact gives_pure _ s

theorem gives_deleteByQuery (h : s.Usable) (index : String) (query : Query) :
    (deleteByQuery index query).Gives s (s.selected index query).length (s.without index query) := by
  change ((s.answer (.deleteByQuery index query)).1, (s.answer (.deleteByQuery index query)).2) = _
  simp only [Store.answer, h.deleteByQuery]

end StoreM
end ChainIndex
