import ChainIndex.Proofs.Indexer.Runs

/-!
Duplicate delivery. A block that is saved again, after a save that failed in part or one that did not, leaves
what one undisturbed save leaves: the indices that the first save reached it leaves as they are, and the
others it brings to the same.
-/
namespace ChainIndex

variable {s : Store} {events : List Delta}

namespace Indexer

variable {ix : Indexer} {block : Block}

/-- What the first save left or wrote of a document, the second makes what one save makes of it. -/
theorem savedAt_savedPartly (h : s.Sound events) (hn : NamesApart (ix.deltas block ++ events))
    (hb : block.Ordered) (hf : FundsKept (ix.deltas block)) (down : List String) (name id : String) :
    ix.savedAt block (ix.savedPartly block down s) name id = ix.savedAt block s name id := by
  have hfits := fits h hn
  have husable := ix.usable_savedPartly block h.usable down
  rcases get?_savedPartly hfits down with ⟨-, hsame⟩ | hget
  · rw [hsame]
  unfold savedAt
  split
  · next hname =>
    subst hname
    by_cases hd : Index.tokens ∈ down
    · have hindex : (ix.savedPartly block down s).index Index.tokens = s.index Index.tokens :=
        h.usable.index_eq husable fun id => by rw [hget, if_pos hd]
      exact TokenWrites.writtenOn_congr _ hindex id
    · refine hfits.writtenOn_twice husable (fun id => ?_) id
      rw [hget, if_neg hd, savedAt, if_pos rfl]
  · next hname =>
    rw [hget]
    split
    · rfl
    · rw [savedAt, if_neg hname]
      exact ix.written_written hb hf fun doc hd => h.documents name id doc hd

/-- Every index is as if the attempt that failed had never been made. -/
theorem index_saved_savedPartly (h : s.Sound events) (hn : NamesApart (ix.deltas block ++ events))
    (hb : block.Ordered) (hf : FundsKept (ix.deltas block)) (down : List String) (name : String) :
    (ix.saved block (ix.savedPartly block down s)).index name = (ix.saved block s).index name := by
  have hpartly := sound_savedPartly h hn hb down
  refine (ix.usable_saved block h.usable).index_eq (ix.usable_saved block hpartly.usable) fun id => ?_
  rw [get?_saved_eq (fits hpartly hn.again), get?_saved_eq (fits h hn)]
  exact savedAt_savedPartly h hn hb hf down name id

/-- A block can be delivered twice. In a store that a run of saves and reverts reached, and with names apart
in all its events and those of the block, saving the block twice leaves every index as saving it once does;
and whatever indices are unavailable during the first save, a second with all of them available does so too. -/
theorem saveBlock_again_eq (ix : Indexer) {block : Block} {events : List Delta} {s : Store} (hrun : Run events s)
    (hb : block.Ordered) (hn : NamesApart (ix.deltas block ++ events)) (hf : FundsKept (ix.deltas block))
    (down : List String) :
    let once := ix.saveBlock block s
    let twice := once.2.1.saveBlock block once.2.2
    let failed := ix.saveBlock block (s.withUnavailable down)
    let retried := failed.2.1.saveBlock block (failed.2.2.withUnavailable [])
    (∃ report, once.1 = .ok report) ∧ (∃ report, twice.1 = .ok report) ∧ (∃ report, retried.1 = .ok report) ∧
      (∀ name, twice.2.2.index name = once.2.2.index name) ∧
      ∀ name, retried.2.2.index name = once.2.2.index name := by
  have hsound := hrun.sound hn.of_append
  have honce := ix.usable_saved block hsound.usable
  have hfailed := ix.usable_savedPartly block hsound.usable down
  have htwice := (ix.alike_saveBlock block s).saveBlock_eq block (ix.saved block s)
  have hretried := (ix.alike_saveBlock block (s.withUnavailable down)).saveBlock_eq block
    (ix.savedPartly block down s)
  have hsame := index_saved_savedPartly hsound hn hb hf
  refine ⟨(ix.saveBlock_spec block hsound.usable).1, ?_, ?_, fun name => ?_, fun name => ?_⟩
  · obtain ⟨report, hreport⟩ := (ix.saveBlock_spec block honce).1
    exact ⟨report, htwice.1.trans hreport⟩
  · obtain ⟨report, hreport⟩ := (ix.saveBlock_spec block hfailed).1
    exact ⟨report, hretried.1.trans hreport⟩
  · -- a save with all indices available is one that fails for none
    have hlast := hsame [] name
    rw [← ix.saved_eq_savedPartly block hsound.usable] at hlast
    exact (congrArg (·.index name) htwice.2).trans hlast
  · exact (congrArg (·.index name) hretried.2).trans (hsame down name)

/-- After a block that issued a collection and was saved without its blocks, one that gives the collection
another type, burns one of its tokens, and un-delegates a fund and withdraws it; tokens and delegators are
unavailable when it is saved first. -/
theorem saveBlock_again_eq_burn :
    let ix : Indexer := {}
    let issue (type : UInt8) : Event :=
      { address := [1], identifier := "issueNonFungible", topics := [[67], [67], [67], [type]] }
    let burn : Event := { address := [1], identifier := "DCDTNFTBurn", topics := [[67], [1], [1]] }
    let unDelegate : Event :=
      { address := [1], identifier := "unDelegate", topics := [[1], [5], [1], [5], [0xf0]] }
    let withdraw : Event :=
      { address := [1], identifier := "withdraw", topics := [[1], [5], [1], [5], [], [0xf0]] }
    let first : Block := { header := { hash := [1] }, pool := { logs := [{ events := [issue 78] }] } }
    let second : Block :=
      { header := { hash := [2] }
        pool := { logs := [{ address := [2], events := [issue 83, burn, unDelegate, withdraw] }] } }
    let s := (ix.saveBlock first ((Store.withPageSize 10).withUnavailable [Index.blocks])).2.2.withUnavailable []
    let once := ix.saveBlock second s
    let failed := ix.saveBlock second (s.withUnavailable [Index.tokens, Index.delegators])
    let retried := failed.2.1.saveBlock second (failed.2.2.withUnavailable [])
    Run (ix.deltas first) s ∧ NamesApart (ix.deltas second ++ ix.deltas first) ∧ FundsKept (ix.deltas second) ∧
      (stakeChanges (ix.deltas second)).length = 2 ∧ ∀ name, retried.2.2.index name = once.2.2.index name := by
  intro ix issue burn unDelegate withdraw first second s
  have hfirst : first.Ordered := ⟨List.Pairwise.nil, List.Pairwise.nil⟩
  have hsecond : second.Ordered := ⟨List.Pairwise.nil, List.Pairwise.nil⟩
  have hrun : Run (ix.deltas first) s := by
    have hsaved := Run.save ix [Index.blocks] (.start 10) hfirst
    rw [List.append_nil] at hsaved
    exact hsaved
  have hnames : NamesApart (ix.deltas second ++ ix.deltas first) := by decide +kernel
  have hfunds : FundsKept (ix.deltas second) := by decide +kernel
  have hstakes : (stakeChanges (ix.deltas second)).length = 2 := by decide +kernel
  obtain ⟨-, -, -, -, hretried⟩ :=
    ix.saveBlock_again_eq hrun hsecond hnames hfunds [Index.tokens, Index.delegators]
  exact ⟨hrun, hnames, hfunds, hstakes, hretried⟩

end Indexer
end ChainIndex
