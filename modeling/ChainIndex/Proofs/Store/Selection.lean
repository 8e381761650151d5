import ChainIndex.Proofs.Store.Unavailable
import ChainIndex.Proofs.Write.Query

/-!
Scrolls and selective deletions. A scroll hands over the documents that match, in full pages but for the last one, up
to the page that its handler fails on. A deletion takes the same documents away, and nothing else.
-/
namespace ChainIndex
namespace Store

variable {s : Store} {name : String} {query : Query} {size : Nat} {docs : List Document}

section Pages

theorem pages_ne_nil (docs : List Document) : ∀ page ∈ pages size docs, page ≠ [] := by
  fun_induction pages size docs with
  | case1 => exact fun _ h => absurd h List.not_mem_nil
  | case2 doc rest ih => exact List.forall_mem_cons.2 ⟨List.cons_ne_nil _ _, ih⟩

theorem length_page_le (hs : 0 < size) (docs : List Document) : ∀ page ∈ pages size docs, page.length ≤ size := by
  fun_induction pages size docs with
  | case1 => exact fun _ h => absurd h List.not_mem_nil
  | case2 doc rest ih =>
    refine List.forall_mem_cons.2 ⟨?_, ih⟩
    rw [List.length_cons, List.length_take]
    omega

/-- A page is full if there is one after it. -/
theorem length_page (hs : 0 < size) (docs : List Document) :
    ∀ page ∈ (pages size docs).dropLast, page.length = size := by
  fun_induction pages size docs with
  | case1 => exact fun _ h => absurd h List.not_mem_nil
  | case2 doc rest ih =>
    cases hmore : rest.drop (size - 1) with
    | nil => simp [pages]
    | cons next more =>
      rw [hmore] at ih
      have hlong : size - 1 < rest.length := by
        refine Nat.lt_of_not_le fun hle => ?_
        rw [List.drop_eq_nil_of_le hle] at hmore
        cases hmore
      have hne : pages size (next :: more) ≠ [] := by
        rw [pages]
        exact List.cons_ne_nil _ _
      rw [List.dropLast_cons_of_ne_nil hne]
      refine List.forall_mem_cons.2 ⟨?_, ih⟩
      rw [List.length_cons, List.length_take]
      omega

end Pages

section Handler

variable {σ : Type} {handler : σ → List Document → Except StoreError σ} {start mid : σ} {before : List (List Document)}

/-- Pages are handed over in order as long as the handler does not fail. -/
theorem feed_append (h : before.foldlM handler start = .ok mid) (more : List (List Document)) :
    feed handler start (before ++ more) = feed handler mid more := by
  induction before generalizing start with
  | nil =>
    obtain rfl := Except.ok.inj h
    rfl
  | cons page rest ih =>
    rw [List.foldlM_cons] at h
    cases hp : handler start page with
    | error e =>
      rw [hp] at h
      cases h
    | ok next =>
      rw [hp] at h
      rw [List.cons_append, feed, hp]
      exact ih h

theorem feed_all (h : before.foldlM handler start = .ok mid) : feed handler start before = (mid, none) := by
  have hall := feed_append h []
  rwa [List.append_nil] at hall

/-- No page is handed over after a failure. -/
theorem feed_failed (h : before.foldlM handler start = .ok mid) {page : List Document} {e : StoreError}
    (hp : handler mid page = .error e) (rest : List (List Document)) :
    feed handler start (before ++ page :: rest) = (mid, some e) := by
  rw [feed_append h, feed, hp]

end Handler

section Selected

/-- A document is selected if it is stored and matches. -/
theorem mem_selected_iff (h : (s.index name).Sorted) {doc : Document} :
    doc ∈ s.selected name query ↔ s.get? name doc.id = some doc.source ∧ query.Matches doc.source := by
  rw [selected, documents, List.mem_filter, List.mem_map, Query.selects_iff]
  refine and_congr_left fun _ => ?_
  constructor
  · rintro ⟨e, he, rfl⟩
    exact h.find?_of_mem he
  · intro hf
    exact ⟨_, Dict.mem_of_find? hf, rfl⟩

theorem pairwise_selected (h : (s.index name).Sorted) (query : Query) :
    (s.selected name query).Pairwise fun doc other => doc.id < other.id := by
  have hids : (s.documents name).Pairwise fun doc other => doc.id < other.id := List.pairwise_map.2 h
  exact hids.filter _

theorem get?_without_eq_some_iff (h : (s.index name).Sorted) {id : String} {doc : Value} :
    (s.without name query).get? name id = some doc ↔ s.get? name id = some doc ∧ ¬query.Matches doc := by
  rw [get?_without h, if_pos rfl, Option.filter_eq_some_iff, Bool.not_eq_true', ← Bool.not_eq_true, Query.selects_iff]

theorem selected_without (s : Store) (name : String) (query : Query) :
    (s.without name query).selected name query = [] := by
  rw [selected, documents, index_without, if_pos rfl, List.filter_eq_nil_iff]
  intro doc hd
  obtain ⟨e, he, rfl⟩ := List.mem_map.1 hd
  simpa using (List.mem_filter.1 he).2

/-- Nothing but the documents of the index changes. -/
theorem without_eq (s : Store) (name : String) (query : Query) :
    s.without name query = { s with indices := (s.without name query).indices } := by
  unfold without
  split <;> rfl

end Selected

/-- Of an available index a scroll hands over the documents that match, each once and in id order, page by page: all
pages, or those before the first that the handler fails on, and its error. A deletion answers how many documents match
and leaves all others, so that the same scroll finds nothing more. -/
theorem scroll_and_delete (hsize : 0 < s.pageSize) (hindex : name ∉ s.unavailable) (hsorted : (s.index name).Sorted)
    (query : Query) :
    ∃ found : List (List Document),
      ((∀ doc : Document, doc ∈ found.flatten ↔ s.get? name doc.id = some doc.source ∧ query.Matches doc.source) ∧
        found.flatten.Pairwise (fun doc other => doc.id < other.id)) ∧
      ((∀ page ∈ found, page ≠ [] ∧ page.length ≤ s.pageSize) ∧
        ∀ page ∈ found.dropLast, page.length = s.pageSize) ∧
      (∀ (σ : Type) (handler : σ → List Document → Except StoreError σ) (start mid : σ),
        (found.foldlM handler start = .ok mid → s.scroll name query handler start = (mid, none)) ∧
        ∀ before page rest e, found = before ++ page :: rest → before.foldlM handler start = .ok mid →
          handler mid page = .error e → s.scroll name query handler start = (mid, some e)) ∧
      ∃ after : Store,
        s.deleteByQuery name query = .ok (found.flatten.length, after) ∧
        (∀ id doc, after.get? name id = some doc ↔ s.get? name id = some doc ∧ ¬query.Matches doc) ∧
        (∀ other, other ≠ name → after.index other = s.index other) ∧
        after = { s with indices := after.indices } ∧
        after.scrollPages name query = .ok [] := by
  have hcheck : s.check name = .ok () := by rw [check_eq, if_neg hindex]
  have hpages : s.scrollPages name query = .ok (pages s.pageSize (s.selected name query)) := by
    rw [scrollPages, hcheck]
    rfl
  have hflatten := flatten_pages s.pageSize (s.selected name query)
  refine ⟨pages s.pageSize (s.selected name query), ?_, ?_, ?_, s.without name query, ?_, ?_, ?_, ?_, ?_⟩
  · rw [hflatten]
    exact ⟨fun doc => mem_selected_iff hsorted, pairwise_selected hsorted query⟩
  · exact ⟨fun page hp => ⟨pages_ne_nil _ page hp, length_page_le hsize _ page hp⟩, length_page hsize _⟩
  · intro σ handler start mid
    have hscroll : s.scroll name query handler start =
        feed handler start (pages s.pageSize (s.selected name query)) := by
      rw [scroll, hpages]
    refine ⟨fun hall => hscroll.trans (feed_all hall), fun before page rest e hsplit hbefore hfail => ?_⟩
    rw [hscroll, hsplit]
    exact feed_failed hbefore hfail rest
  · rw [hflatten]
    exact deleteByQuery_of_check hcheck query
  · exact fun id doc => get?_without_eq_some_iff hsorted
  · exact fun other hne => by rw [index_without, if_neg (Ne.symm hne)]
  · exact without_eq s name query
  · have hafter : (s.without name query).check name = .ok () := by
      rw [check_eq, without_eq, if_neg hindex]
    rw [scrollPages, hafter, selected_without, pages]
    rfl

/-- Of the numbers 1 and 1.0 only the integer is the one that is asked for, and it is looked for under both its keys. -/
theorem scroll_and_delete_integer :
    let integer : Value := .record [("data", .record [("amount", .nat 1)])]
    let double : Value := .record [("data", .record [("amount", .real ⟨0x3FF0000000000000⟩)])]
    let s : Store := ((withPageSize 2).put "tokens" "a" integer).put "tokens" "b" double
    let query : Query := .all [.present "data", .term "data.amount" (.nat 1)]
    (0 < s.pageSize ∧ "tokens" ∉ s.unavailable ∧ (s.index "tokens").Sorted) ∧
      ∃ (found : List (List Document)) (after : Store),
        ⟨"a", integer⟩ ∈ found.flatten ∧ ⟨"b", double⟩ ∉ found.flatten ∧
        s.deleteByQuery "tokens" query = .ok (found.flatten.length, after) ∧
        after.get? "tokens" "a" = none ∧ after.get? "tokens" "b" = some double := by
  intro integer double s query
  have hsize : 0 < s.pageSize := by decide
  have hindex : "tokens" ∉ s.unavailable := by decide
  have hsorted : (s.index "tokens").Sorted :=
    Dict.Sorted.insert (Dict.Sorted.insert List.Pairwise.nil "a" integer) "b" double
  have hinteger : query.Matches integer := (Query.selects_iff query integer).1 (by decide)
  have hdouble : ¬query.Matches double := fun h => absurd ((Query.selects_iff query double).2 h) (by decide)
  obtain ⟨found, ⟨hfound, -⟩, -, -, after, hdelete, hleft, -⟩ := scroll_and_delete hsize hindex hsorted query
  have hgone : after.get? "tokens" "a" = none := by
    refine Option.eq_none_iff_forall_ne_some.2 fun doc hd => ?_
    obtain ⟨hstored, hnot⟩ := (hleft _ _).1 hd
    exact hnot (Option.some.inj hstored ▸ hinteger)
  exact ⟨⟨hsize, hindex, hsorted⟩, found, after, (hfound _).2 ⟨rfl, hinteger⟩, fun h => hdouble ((hfound _).1 h).2,
    hdelete, hgone, (hleft _ _).2 ⟨rfl, hdouble⟩⟩

end Store
end ChainIndex
