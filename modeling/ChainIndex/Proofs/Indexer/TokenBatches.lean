import ChainIndex.Proofs.Accumulator.Join
import ChainIndex.Proofs.Indexer.Tokens

/-!
Where the blocks of a token's changes begin and end. Deltas gathered in parts, each part written in its turn, leave the
document that they leave when they are gathered at once, up to the order of the addresses that hold a role.
-/
namespace ChainIndex
namespace TokenAccumulator

variable {a b c acc : TokenAccumulator} {token : String} {v w x : Value}

structure Alike (v w : Value) : Prop where
  left : v.IsDocument
  right : w.IsDocument
  fields : ∀ key, key ≠ "roles" → v.get? key = w.get? key
  holders : ∀ role x, x ∈ holdersIn (some v) role ↔ x ∈ holdersIn (some w) role

theorem alike_refl (h : v.IsDocument) : Alike v v := ⟨h, h, fun _ _ => rfl, fun _ _ => .rfl⟩

theorem Alike.trans (h : Alike v w) (h' : Alike w x) : Alike v x where
  left := h.left
  right := h'.right
  fields := fun key hk => (h.fields key hk).trans (h'.fields key hk)
  holders := fun role y => (h.holders role y).trans (h'.holders role y)

def written (token : String) (acc : TokenAccumulator) (doc : Value) : Value :=
  Mutation.applyAll (acc.allMutations token) doc

theorem Sound.isDocument_written (h : acc.Sound) (hd : v.IsDocument) : (acc.written token v).IsDocument :=
  Mutation.isDocument_applyAll (h.ordered.allMutations token) hd

/-- What a block writes hangs on what the document tells alone. -/
theorem Alike.written (h : Alike v w) (hacc : acc.Sound) : Alike (acc.written token v) (acc.written token w) where
  left := hacc.isDocument_written h.left
  right := hacc.isDocument_written h.right
  fields := fun key hk => by
    have hfield := h.fields key hk
    unfold TokenAccumulator.written
    by_cases hp : key = "properties"
    · rw [hp] at hfield ⊢
      rw [get?_allMutations_properties, get?_allMutations_properties, hfield]
    by_cases ho : key = "ownersHistory"
    · rw [ho] at hfield ⊢
      rw [get?_allMutations_ownersHistory, get?_allMutations_ownersHistory, hfield]
    have hother : key ∉ ["roles", "properties", "ownersHistory"] := by simp [hk, hp, ho]
    rw [hacc.get?_allMutations hother, hacc.get?_allMutations hother, hfield]
  holders := fun role y => by
    unfold TokenAccumulator.written
    rw [hacc.mem_holdersIn_allMutations h.left, hacc.mem_holdersIn_allMutations h.right, h.holders]

/-- Two parts written one after the other do what they do as one. -/
theorem Joins.written (h : Joins a b c) (ha : a.Sound) (hb : b.Sound) (hc : c.Sound) (hd : v.IsDocument)
    (token : String) : Alike (c.written token v) (b.written token (a.written token v)) where
  left := hc.isDocument_written hd
  right := hb.isDocument_written (ha.isDocument_written hd)
  fields := fun key hk => by
    unfold TokenAccumulator.written
    by_cases hp : key = "properties"
    · rw [hp, get?_allMutations_properties, get?_allMutations_properties, get?_allMutations_properties,
        h.onProperties ha.ordered hb.ordered hc.ordered fun w hw => hd.ordered.get? hw]
    by_cases ho : key = "ownersHistory"
    · rw [ho, get?_allMutations_ownersHistory, get?_allMutations_ownersHistory, get?_allMutations_ownersHistory,
        h.onHistory]
    have hother : key ∉ ["roles", "properties", "ownersHistory"] := by simp [hk, hp, ho]
    rw [hc.get?_allMutations hother, hb.get?_allMutations hother, ha.get?_allMutations hother, h.told?, h.filled?]
    simp only [Option.or_assoc]
  holders := fun role y => by
    have hmiddle : (Mutation.applyAll (a.allMutations token) v).IsDocument := ha.isDocument_written hd
    unfold TokenAccumulator.written
    rw [hc.mem_holdersIn_allMutations hd, hb.mem_holdersIn_allMutations hmiddle, ha.mem_holdersIn_allMutations hd,
      h.grantTo?]
    cases b.grantTo? role y <;> simp

end TokenAccumulator

namespace TokenWrites

open TokenAccumulator (Alike Dotless Joins gather holdersIn)

variable {token : String} {doc : Value}

/-- What a block of deltas does to a stored document. -/
theorem tokenAction_addAll (deltas : List Delta) (token : String) (doc : Value) :
    (tokenAction (({} : BlockAccumulators).addAll deltas) token).apply (some doc) =
      some ((gather token deltas).written token doc) := by
  rw [tokenAction_apply_some, BlockAccumulators.ofToken_addAll]
  rfl

/-- Groups written in turn, from the first on. -/
theorem applyAll_tokenActions (hd : doc.IsDocument) {groups : List (List Delta)}
    (hdot : ∀ g ∈ groups, ∀ delta ∈ g, Dotless token delta) :
    ∃ parts, WriteAction.applyAll
        (groups.map fun g => tokenAction (({} : BlockAccumulators).addAll g) token) (some doc) = some parts ∧
      Alike ((gather token groups.flatten).written token doc) parts := by
  induction groups using List.reverseRecOn with
  | nil => exact ⟨doc, rfl, TokenAccumulator.alike_refl hd⟩
  | append_singleton groups last ih =>
    obtain ⟨hinit, hlast⟩ := List.forall_mem_append.1 hdot
    obtain ⟨parts, hparts, halike⟩ := ih hinit
    have hearlier : ∀ delta ∈ groups.flatten, Dotless token delta := fun delta hm => by
      obtain ⟨g, hg, hdelta⟩ := List.mem_flatten.1 hm
      exact hinit g hg delta hdelta
    have hlater : ∀ delta ∈ last, Dotless token delta := hlast last (List.mem_singleton_self last)
    have hall : ∀ delta ∈ groups.flatten ++ last, Dotless token delta :=
      List.forall_mem_append.2 ⟨hearlier, hlater⟩
    have hjoins := TokenAccumulator.joins_gather_append token groups.flatten last
    have hsound := TokenAccumulator.sound_gather hlater
    have hsplit := hjoins.written (TokenAccumulator.sound_gather hearlier) hsound (TokenAccumulator.sound_gather hall) hd
      token
    refine ⟨(gather token last).written token parts, ?_, ?_⟩
    · rw [List.map_append, WriteAction.applyAll, List.foldl_append]
      refine Eq.trans ?_ (tokenAction_addAll last token parts)
      rw [← hparts]
      rfl
    · have hflatten : (groups ++ [last]).flatten = groups.flatten ++ last := by simp
      rw [hflatten]
      exact hsplit.trans (halike.written hsound)

/-- Deltas gathered at once and written, or cut into groups of which each is gathered and written in its turn, leave
documents of a token that agree on every field beside the roles, and on the addresses listed under each role, as long
as no role of the token has a dot in its name. -/
theorem token_batches (token : String) {doc : Value} (hd : doc.IsDocument) (groups : List (List Delta))
    (hdot : ∀ g ∈ groups, ∀ delta ∈ g, ∀ change, delta = .role change → change.token = token →
      '.' ∉ change.role.toList) :
    let written (deltas : List Delta) := tokenAction (({} : BlockAccumulators).addAll deltas) token
    ∃ whole parts : Value,
      (written groups.flatten).apply (some doc) = some whole ∧
      WriteAction.applyAll (groups.map written) (some doc) = some parts ∧
      whole.IsDocument ∧ parts.IsDocument ∧
      (∀ key, key ≠ "roles" → whole.get? key = parts.get? key) ∧
      ∀ role holder, holder ∈ holdersIn (some whole) role ↔ holder ∈ holdersIn (some parts) role := by
  obtain ⟨parts, hparts, halike⟩ := applyAll_tokenActions hd hdot
  exact ⟨_, parts, tokenAction_addAll groups.flatten token doc, hparts, halike.left, halike.right, halike.fields,
    halike.holders⟩

/-- A token that is issued, granted a role, renamed without decimals, transferred and paused in three groups of two
deltas. -/
theorem token_batches_renamed :
    let info (kind : TokenEventKind) (name owner : String) (decimals : Option UInt64) : TokenInfo :=
      { kind, token := "T-01", name, ticker := "T", type := "FungibleDCDT", decimals, issuer := "aa",
        currentOwner := owner, timestamp := 1, ownerEntry := { address := owner }, changeToDynamic := false }
    let grant (granted : Bool) : Delta := .role { token := "T-01", role := "Mint", address := "aa", granted }
    let groups : List (List Delta) :=
      [[.token (info .issue "One" "aa" (some 18)), grant true],
        [.token (info .change "Two" "aa" none), .token (info .transferOwnership "" "bb" none)],
        [grant false, .nftUpdate { identifier := "T-01", address := "aa", change := .pause }]]
    let written (deltas : List Delta) := tokenAction (({} : BlockAccumulators).addAll deltas) "T-01"
    let parts := (WriteAction.applyAll (groups.map written) (some .empty)).getD .null
    Value.empty.IsDocument ∧
      (∀ g ∈ groups, ∀ delta ∈ g, ∀ change, delta = .role change → change.token = "T-01" →
        '.' ∉ change.role.toList) ∧
      (parts.get? "numDecimals").bind Value.nat? = some 18 ∧ (parts.get? "name").bind Value.text? = some "Two" ∧
      (parts.get? "currentOwner").bind Value.text? = some "bb" ∧
      (parts.get? "issuer").bind Value.text? = some "aa" ∧ .str "aa" ∉ holdersIn (some parts) "Mint" := by
  intro info grant groups written parts
  have hdot : ∀ g ∈ groups, ∀ delta ∈ g, ∀ change, delta = .role change → change.token = "T-01" →
      '.' ∉ change.role.toList := by
    simp only [groups, List.forall_mem_cons, List.not_mem_nil, false_imp_iff, implies_true, and_true]
    refine ⟨⟨nofun, ?_⟩, ⟨nofun, nofun⟩, ?_, nofun⟩
    · rintro change ⟨rfl⟩ -
      decide
    · rintro change ⟨rfl⟩ -
      decide
  obtain ⟨whole, pieces, hwhole, hpieces, -, -, hfields, hholders⟩ :=
    token_batches "T-01" Value.isDocument_empty groups hdot
  have hparts : parts = pieces := congrArg (·.getD .null) hpieces
  have hall : whole = ((written groups.flatten).apply (some .empty)).getD .null := (congrArg (·.getD .null) hwhole).symm
  refine ⟨Value.isDocument_empty, hdot, ?_, ?_, ?_, ?_, ?_⟩
  · rw [hparts, ← hfields _ (by decide), hall]
    decide +kernel
  · rw [hparts, ← hfields _ (by decide), hall]
    decide +kernel
  · rw [hparts, ← hfields _ (by decide), hall]
    decide +kernel
  · rw [hparts, ← hfields _ (by decide), hall]
    decide +kernel
  · rw [hparts, ← hholders, hall, ← TokenAccumulator.isAmong_str_iff]
    decide +kernel

end TokenWrites
end ChainIndex
