import ChainIndex.Proofs.Accumulator.Block
import ChainIndex.Proofs.Accumulator.Nft
import ChainIndex.Proofs.Token.Identifier

/-!
Non-fungible tokens in what a block's logs say. All that is gathered under an identifier is about the one token that
the identifier names, and events without the nonce of one leave nothing there.
-/
namespace ChainIndex

namespace Event

def nonce? (event : Event) : Option UInt64 := (event.topic? 1).bind Classify.nftNonce?

/-- The topic of the nonce, if there is one, denotes zero or a number that does not fit 64 bits. -/
def LacksNonce (event : Event) : Prop :=
  ∀ topic, event.topic? 1 = some topic → topic.toNat = 0 ∨ UInt64.size ≤ topic.toNat

end Event

namespace Classify

variable {topic : Bytes} {nonce : UInt64}

theorem nftNonce?_eq_some_iff : nftNonce? topic = some nonce ↔ 0 < nonce ∧ topic.toNat = nonce.toNat := by
  rw [← Bytes.toNonce?_eq_some_iff, UInt64.pos_iff_ne_zero]
  unfold nftNonce?
  split
  · next hzero =>
    rw [hzero]
    constructor
    · exact nofun
    · rintro ⟨hne, h⟩
      exact absurd (Option.some.inj h).symm hne
  · next hother =>
    constructor
    · intro h
      exact ⟨fun hz => hother (hz ▸ h), h⟩
    · exact And.right

end Classify

theorem Event.LacksNonce.nonce?_eq_none {event : Event} (h : event.LacksNonce) : event.nonce? = none := by
  unfold nonce?
  cases ht : event.topic? 1 with
  | none => rfl
  | some topic =>
    refine Option.eq_none_iff_forall_not_mem.2 fun nonce hn => ?_
    obtain ⟨hpos, htopic⟩ := Classify.nftNonce?_eq_some_iff.1 hn
    have hlt := nonce.toNat_lt_size
    have hposNat : 0 < nonce.toNat := UInt64.lt_iff_toNat_lt.1 hpos
    rcases h topic ht with hzero | hbig
    · omega
    · omega

namespace Delta

/-- The non-fungible token that the delta is about, if any, it names by its collection and a nonce of the kind `p`. -/
def NamesNft (p : UInt64 → Prop) : Delta → Prop
  | nftCreated info => p info.nonce ∧ info.identifier = nftIdentifier info.token info.nonce
  | supply change => p change.nonce ∧ change.identifier = nftIdentifier change.token change.nonce
  | nftUpdate u => u.change = .pause ∨ u.change = .unPause ∨
      ∃ token nonce, p nonce ∧ u.identifier = nftIdentifier token nonce
  | _ => True

variable {p q : UInt64 → Prop} {delta : Delta}

theorem NamesNft.mono (h : delta.NamesNft p) (hpq : ∀ nonce, p nonce → q nonce) : delta.NamesNft q := by
  cases delta with
  | nftCreated info => exact ⟨hpq _ h.1, h.2⟩
  | supply change => exact ⟨hpq _ h.1, h.2⟩
  | nftUpdate u =>
    rcases h with h | h | ⟨token, nonce, hp, hid⟩
    · exact .inl h
    · exact .inr (.inl h)
    · exact .inr (.inr ⟨token, nonce, hpq _ hp, hid⟩)
  | _ => trivial

/-- Where no nonce will do, the delta is about no non-fungible token. -/
theorem NamesNft.nftNames_eq_nil (h : delta.NamesNft p) (hp : ∀ nonce, ¬p nonce) : delta.nftNames = [] := by
  cases delta with
  | nftCreated info => exact absurd h.1 (hp _)
  | supply change => exact absurd h.1 (hp _)
  | nftUpdate u =>
    obtain ⟨identifier, address, change⟩ := u
    rcases h with rfl | rfl | ⟨token, nonce, hn, -⟩
    · rfl
    · rfl
    · exact absurd hn (hp nonce)
  | _ => rfl

/-- Only two classifiers speak of non-fungible tokens. -/
theorem namesNft_of_source (hn : delta.source ≠ .nfts) (hp : delta.source ≠ .nftProperties) : delta.NamesNft p := by
  cases delta with
  | nftCreated info => exact absurd rfl hn
  | supply change => exact absurd rfl hn
  | nftUpdate u => exact absurd rfl hp
  | _ => trivial

end Delta

namespace Outcome

/-- Whatever the outcome says of non-fungible tokens names them by nonces of the kind `p`. -/
def NamesNfts (p : UInt64 → Prop) (o : Outcome) : Prop := ∀ delta ∈ o.deltas?.getD [], delta.NamesNft p

variable {p : UInt64 → Prop} {delta : Delta}

@[simp] theorem namesNfts_notApplicable : notApplicable.NamesNfts p := nofun

@[simp] theorem namesNfts_swallowed : swallowed.NamesNfts p := nofun

@[simp] theorem namesNfts_single : (single delta).NamesNfts p ↔ delta.NamesNft p := List.forall_mem_singleton

end Outcome

section Classifiers

variable (name : EventName) (event : Event) (ctx : EventContext)

theorem Event.nonce?_of_topics {event : Event} {token nonce : Bytes} {rest : List Bytes}
    (h : event.topics = token :: nonce :: rest) : event.nonce? = Classify.nftNonce? nonce := by
  rw [nonce?, topic?, h]
  rfl

theorem Classify.namesNfts_nfts : (nfts name event ctx).NamesNfts (event.nonce? = some ·) := by
  have created (token : Bytes) {nonce : UInt64} (rest : List Bytes) (hn : event.nonce? = some nonce) :
      (nftCreated token nonce rest ctx).NamesNfts (event.nonce? = some ·) := by
    unfold nftCreated
    split
    · simp
    · split
      · simp
      · exact Outcome.namesNfts_single.2 ⟨hn, rfl⟩
  have removed (kind : SupplyKind) (token : Bytes) {nonce : UInt64} (value : Bytes) (hn : event.nonce? = some nonce) :
      (nftRemoved kind token nonce value ctx).NamesNfts (event.nonce? = some ·) := by
    unfold nftRemoved
    split
    · simp
    · exact Outcome.namesNfts_single.2 ⟨hn, rfl⟩
  unfold nfts
  split
  · simp
  · next kind token topic value rest _ htopics =>
    split
    · simp
    · simp
    · next nonce account hnonce _ =>
      have hn := (Event.nonce?_of_topics htopics).trans hnonce
      cases kind with
      | create => exact created token rest hn
      | remove kind => exact removed kind token value hn
  · simp

theorem Classify.pauseOf?_eq {name : EventName} {change : NftChange} (h : pauseOf? name = some change) :
    change = .pause ∨ change = .unPause := by
  unfold pauseOf? at h
  split at h
  · exact .inl (Option.some.inj h).symm
  · exact .inr (Option.some.inj h).symm
  · cases h

theorem Classify.namesNfts_nftProperties :
    (nftProperties name event ctx).NamesNfts (event.nonce? = some ·) := by
  unfold nftProperties
  split
  · simp
  · split
    · simp
    · split
      · next change hchange =>
        exact Outcome.namesNfts_single.2 ((pauseOf?_eq hchange).imp_right .inl)
      · simp
    · next caller token topic value data _ htopics =>
      split
      · simp
      · split
        · simp
        · next nonce hnonce =>
          have hn := (Event.nonce?_of_topics htopics).trans hnonce
          split
          · exact Outcome.namesNfts_single.2 (.inr (.inr ⟨_, nonce, hn, rfl⟩))
          · simp
    · simp

/-- What a classifier says of a non-fungible token names it by the nonce among the topics. -/
theorem Classifier.namesNfts_classify (c : Classifier) :
    (c.classify event ctx).NamesNfts (event.nonce? = some ·) := by
  by_cases hc : c = .nfts ∨ c = .nftProperties
  · unfold classify
    split
    · next name _ =>
      rcases hc with rfl | rfl
      · exact Classify.namesNfts_nfts name event ctx
      · exact Classify.namesNfts_nftProperties name event ctx
    · simp
  · obtain ⟨hn, hp⟩ := not_or.1 hc
    have hfrom := c.from_classify event ctx
    cases ho : c.classify event ctx with
    | notApplicable => simp
    | processed deltas =>
      rw [ho] at hfrom
      intro delta hd
      obtain ⟨-, hsource⟩ := hfrom delta hd
      exact Delta.namesNft_of_source (hsource ▸ hn) (hsource ▸ hp)

/-- Whichever classifier takes an event, its deltas name non-fungible tokens by the event's nonce. -/
theorem Registry.namesNft_dispatch (r : Registry) :
    ∀ delta ∈ (r.dispatch event ctx).getD [], delta.NamesNft (event.nonce? = some ·) := by
  intro delta hd
  cases hdispatch : r.dispatch event ctx with
  | none =>
    rw [hdispatch] at hd
    cases hd
  | some deltas =>
    obtain ⟨c, -, hc⟩ := List.exists_of_findSome?_eq_some hdispatch
    rw [hdispatch] at hd
    refine c.namesNfts_classify event ctx delta ?_
    rw [hc]
    exact hd

end Classifiers

namespace NftAccumulator

/-- All that is gathered is about one non-fungible token: its creation, every burn and wipe, and every change, which is
no pause, for those are of collections. -/
structure About (n : NftAccumulator) (token : String) (nonce : UInt64) : Prop where
  created : ∀ info, n.created = some info →
    info.identifier = nftIdentifier token nonce ∧ info.token = token ∧ info.nonce = nonce
  supply : ∀ change ∈ n.supply,
    change.identifier = nftIdentifier token nonce ∧ change.token = token ∧ change.nonce = nonce
  updates : ∀ u ∈ n.updates, u.identifier = nftIdentifier token nonce ∧ u.change ≠ .pause ∧ u.change ≠ .unPause

variable {n : NftAccumulator} {token : String} {nonce : UInt64}

theorem about_empty : ({} : NftAccumulator).About token nonce := ⟨nofun, nofun, nofun⟩

/-- Every burn and wipe names the collection that is picked. -/
theorem About.collection?_of_supply (h : n.About token nonce) {change : SupplyChange} (hc : change ∈ n.supply) :
    n.collection? = some change.token := by
  obtain ⟨-, htoken, -⟩ := h.supply change hc
  cases hi : n.created with
  | some info => rw [collection?_of_created hi, (h.created info hi).2.1, htoken]
  | none =>
    cases hs : n.supply with
    | nil => exact absurd hs (List.ne_nil_of_mem hc)
    | cons first rest =>
      have hfirst : first.token = token := (h.supply first (hs ▸ List.mem_cons_self)).2.1
      rw [collection?, hi, hs, htoken, ← hfirst]
      rfl

end NftAccumulator

namespace BlockAccumulators

variable {acc other : BlockAccumulators} {delta : Delta} {token : String} {nonce : UInt64}

/-- Whatever is gathered under an identifier is about the token of that name. -/
def Coherent (acc : BlockAccumulators) : Prop :=
  ∀ e ∈ acc.nfts, ∃ token nonce, 0 < nonce ∧ e.1 = nftIdentifier token nonce ∧ e.2.About token nonce

/-- A change that is about the token keeps the accumulators coherent. -/
theorem Coherent.onNft (h : acc.Coherent) (hpos : 0 < nonce) {f : NftAccumulator → NftAccumulator}
    (hf : ∀ n : NftAccumulator, n.About token nonce → (f n).About token nonce) :
    (acc.onNft (nftIdentifier token nonce) f).Coherent := by
  intro e he
  rcases Dict.eq_or_mem_of_mem_insert he with rfl | he
  · refine ⟨token, nonce, hpos, rfl, hf _ ?_⟩
    cases hfound : acc.nfts.find? (nftIdentifier token nonce) with
    | none => exact NftAccumulator.about_empty
    | some known =>
      -- the identifier tells what the known entry is about
      obtain ⟨known_token, known_nonce, -, hid, habout⟩ := h _ (Dict.mem_of_find? hfound)
      obtain ⟨rfl, rfl⟩ := nftIdentifier_inj hid
      exact habout
  · exact h e he

/-- One delta adds what it says to the token that it names. -/
theorem Coherent.add (h : acc.Coherent) (hd : delta.NamesNft (0 < ·)) : (acc.add delta).Coherent := by
  cases delta with
  | nftCreated info =>
    obtain ⟨hpos, hid⟩ := hd
    rw [BlockAccumulators.add, hid]
    refine h.onNft hpos fun n hn => ⟨fun created hc => ?_, hn.supply, hn.updates⟩
    obtain rfl := Option.some.inj hc
    exact ⟨hid, rfl, rfl⟩
  | supply change =>
    obtain ⟨hpos, hid⟩ := hd
    rw [BlockAccumulators.add, hid]
    refine h.onNft hpos fun n hn => ⟨hn.created, fun c hc => ?_, hn.updates⟩
    rcases List.mem_append.1 hc with hc | hc
    · exact hn.supply c hc
    · obtain rfl := List.mem_singleton.1 hc
      exact ⟨hid, rfl, rfl⟩
  | nftUpdate u =>
    unfold BlockAccumulators.add addUpdate
    dsimp only
    split
    · exact h
    · exact h
    · next hpause hunPause =>
      rcases hd with hp | hu | ⟨token, nonce, hpos, hid⟩
      · exact absurd hp hpause
      · exact absurd hu hunPause
      · rw [hid]
        refine h.onNft hpos fun n hn => ⟨hn.created, hn.supply, fun v hv => ?_⟩
        rcases List.mem_append.1 hv with hv | hv
        · exact hn.updates v hv
        · obtain rfl := List.mem_singleton.1 hv
          exact ⟨hid, hpause, hunPause⟩
  | _ => exact h

theorem Coherent.addAll {deltas : List Delta} (h : acc.Coherent) (hd : ∀ delta ∈ deltas, delta.NamesNft (0 < ·)) :
    (acc.addAll deltas).Coherent :=
  List.foldlRecOn deltas BlockAccumulators.add h fun _ ha delta hm => ha.add (hd delta hm)

/-- What is gathered of non-fungible tokens depends on what was, and on nothing else that was gathered. -/
theorem nfts_add_congr (h : acc.nfts = other.nfts) (delta : Delta) : (acc.add delta).nfts = (other.add delta).nfts := by
  cases delta with
  | nftUpdate u =>
    unfold BlockAccumulators.add addUpdate
    dsimp only
    split
    · exact h
    · exact h
    · rw [BlockAccumulators.onNft, BlockAccumulators.onNft, h]
  | nftCreated info => rw [add, add, BlockAccumulators.onNft, BlockAccumulators.onNft, h]
  | supply change => rw [add, add, BlockAccumulators.onNft, BlockAccumulators.onNft, h]
  | _ => exact h

/-- A delta about no non-fungible token leaves what is gathered of them alone. -/
theorem nfts_add_of_nftNames (h : delta.nftNames = []) (acc : BlockAccumulators) : (acc.add delta).nfts = acc.nfts := by
  cases delta with
  | nftUpdate u =>
    unfold BlockAccumulators.add addUpdate
    dsimp only
    split
    · rfl
    · rfl
    · next hpause hunPause =>
      have hname := Delta.mem_nftNames_update (fun hp => hpause hp) fun hu => hunPause hu
      rw [h] at hname
      cases hname
  | nftCreated info => cases h
  | supply change => cases h
  | _ => rfl

/-- Only the deltas about non-fungible tokens count for them. -/
theorem nfts_addAll_filter (h : acc.nfts = other.nfts) (deltas : List Delta) :
    (acc.addAll deltas).nfts = (other.addAll (deltas.filter fun delta => !delta.nftNames.isEmpty)).nfts := by
  induction deltas generalizing acc other with
  | nil => exact h
  | cons delta rest ih =>
    rw [List.filter_cons]
    split
    · exact ih (nfts_add_congr h delta)
    · next hsilent =>
      have hnames : delta.nftNames = [] := by simpa using hsilent
      exact ih ((nfts_add_of_nftNames hnames acc).trans h)

end BlockAccumulators

/-- The pool with only those events that are kept. -/
def Pool.keepEvents (pool : Pool) (keep : Event → Bool) : Pool :=
  { pool with logs := pool.logs.map fun log => { log with events := log.events.filter keep } }

namespace Registry

variable {r : Registry} {pool : Pool} {timestamp : UInt64}

/-- What a pool says, log by log and event by event. -/
theorem deltas_eq_flatMap (r : Registry) (pool : Pool) (timestamp : UInt64) :
    r.deltas pool timestamp = pool.logs.flatMap fun log =>
      log.events.flatMap fun event => (r.dispatch event (r.context pool timestamp log)).getD [] := by
  simp only [deltas, answers, List.flatMap_assoc, List.flatMap_map]

theorem coherent_processLogs (r : Registry) (pool : Pool) (timestamp : UInt64) :
    (r.processLogs pool timestamp).Coherent := by
  rw [processLogs_eq_addAll, deltas_eq_flatMap]
  refine BlockAccumulators.Coherent.addAll nofun fun delta hd => ?_
  obtain ⟨log, -, hd⟩ := List.mem_flatMap.1 hd
  obtain ⟨event, -, hd⟩ := List.mem_flatMap.1 hd
  refine (r.namesNft_dispatch event _ delta hd).mono fun nonce hn => ?_
  obtain ⟨topic, -, htopic⟩ := Option.bind_eq_some_iff.1 hn
  exact (Classify.nftNonce?_eq_some_iff.1 htopic).1

/-- An event without a nonce says nothing of non-fungible tokens. -/
theorem filter_dispatch_eq_nil {event : Event} (h : event.LacksNonce) (r : Registry) (ctx : EventContext) :
    ((r.dispatch event ctx).getD []).filter (fun delta => !delta.nftNames.isEmpty) = [] := by
  refine List.filter_eq_nil_iff.2 fun delta hd => ?_
  have hnone (nonce : UInt64) : event.nonce? ≠ some nonce := by
    rw [h.nonce?_eq_none]
    exact nofun
  rw [(r.namesNft_dispatch event ctx delta hd).nftNames_eq_nil hnone]
  exact Bool.false_ne_true

/-- Events without a nonce may be left out: what is said of non-fungible tokens is the same. -/
theorem filter_deltas_keepEvents {keep : Event → Bool}
    (h : ∀ log ∈ pool.logs, ∀ event ∈ log.events, keep event = false → event.LacksNonce) :
    (r.deltas (pool.keepEvents keep) timestamp).filter (fun delta => !delta.nftNames.isEmpty) =
      (r.deltas pool timestamp).filter fun delta => !delta.nftNames.isEmpty := by
  have hkept {α : Type} (events : List Event) (f : Event → List α)
      (hsilent : ∀ event ∈ events, keep event = false → f event = []) :
      (events.filter keep).flatMap f = events.flatMap f := by
    induction events with
    | nil => rfl
    | cons event rest ih =>
      obtain ⟨hevent, hrest⟩ := List.forall_mem_cons.1 hsilent
      rw [List.filter_cons, List.flatMap_cons, ← ih hrest]
      cases hk : keep event with
      | true => rfl
      | false =>
        rw [hevent hk]
        rfl
  rw [deltas_eq_flatMap, deltas_eq_flatMap, Pool.keepEvents, List.flatMap_map]
  simp only [List.filter_flatMap]
  refine List.flatMap_congr fun log hl => ?_
  exact hkept log.events _ fun event he hk => filter_dispatch_eq_nil (h log hl event he hk) r _

/-- Events without a nonce leave nothing among the non-fungible tokens. -/
theorem nfts_keepEvents {keep : Event → Bool}
    (h : ∀ log ∈ pool.logs, ∀ event ∈ log.events, keep event = false → event.LacksNonce) :
    (r.processLogs (pool.keepEvents keep) timestamp).nfts = (r.processLogs pool timestamp).nfts := by
  rw [processLogs_eq_addAll, processLogs_eq_addAll, BlockAccumulators.nfts_addAll_filter rfl,
    filter_deltas_keepEvents h, ← BlockAccumulators.nfts_addAll_filter rfl]

/-- What the logs of a block say of non-fungible tokens is coherent. An identifier under which anything is gathered
names one collection and one nonce above zero, and its creation, its burns and wipes and its changes are all about
that token, so that each of them picks the same collection. Events whose nonce is zero or does not fit 64 bits leave nothing
there, for without them the same is gathered. -/
theorem nfts_coherent (r : Registry) (pool : Pool) (timestamp : UInt64) :
    (∀ e ∈ (r.processLogs pool timestamp).nfts, ∃ token nonce, (0 < nonce ∧ e.1 = nftIdentifier token nonce) ∧
      (∀ other otherNonce, e.1 = nftIdentifier other otherNonce → other = token ∧ otherNonce = nonce) ∧
      e.2.About token nonce ∧
      (∀ info, e.2.created = some info → e.2.collection? = some info.token) ∧
      ∀ change ∈ e.2.supply, e.2.collection? = some change.token) ∧
    ∀ keep : Event → Bool,
      (∀ log ∈ pool.logs, ∀ event ∈ log.events, keep event = false → event.LacksNonce) →
      (r.processLogs (pool.keepEvents keep) timestamp).nfts = (r.processLogs pool timestamp).nfts := by
  refine ⟨fun e he => ?_, fun keep => nfts_keepEvents⟩
  obtain ⟨token, nonce, hpos, hid, habout⟩ := r.coherent_processLogs pool timestamp e he
  refine ⟨token, nonce, ⟨hpos, hid⟩, fun other otherNonce hother => ?_, habout,
    fun _ => NftAccumulator.collection?_of_created, fun _ => habout.collection?_of_supply⟩
  exact nftIdentifier_inj (hother.symm.trans hid)

/-- Under one identifier a burn and two changes, among events with a nonce of zero, a nonce of nine octets and none. -/
theorem nfts_coherent_burnt :
    let r : Registry := {}
    let token : Bytes := [67, 45, 49]
    let burn (nonce : Bytes) : Event := { address := [1], identifier := "DCDTNFTBurn", topics := [token, nonce, [1]] }
    let freeze : Event := { address := [1], identifier := "DCDTFreeze", topics := [token, [0, 2], [], [1]] }
    let pause : Event := { address := [1], identifier := "DCDTPause", topics := [token] }
    let wide : Bytes := [1, 0, 0, 0, 0, 0, 0, 0, 0]
    let events := [burn [], freeze, burn [0, 0], burn [2], burn wide, pause, freeze]
    let pool : Pool := { logs := [{ events }] }
    let keep (event : Event) : Bool := event.topics.length ≠ 1 && event.topic? 1 ∉ [some [], some [0, 0], some wide]
    let frozen : NftUpdate := ⟨"C-1-02", "01", .freeze⟩
    let change : SupplyChange := ⟨.burn, "C-1-02", "C-1", 2, ⟨1, by decide⟩, 7⟩
    let burnt : NftAccumulator := { updates := [frozen, frozen], supply := [change] }
    (r.processLogs pool 7).nfts = [("C-1-02", burnt)] ∧
      burnt.About "C-1" 2 ∧ burnt.collection? = some "C-1" ∧
      (∀ event ∈ events, keep event = false → event.LacksNonce) ∧
      pool.keepEvents keep = { logs := [{ events := [freeze, burn [2], freeze] }] } ∧
      (r.processLogs (pool.keepEvents keep) 7).nfts = [("C-1-02", burnt)] := by
  intro r token burn freeze pause wide events pool keep frozen change burnt
  have hnfts : (r.processLogs pool 7).nfts = [("C-1-02", burnt)] := by decide +kernel
  obtain ⟨hcoherent, hignored⟩ := nfts_coherent r pool 7
  have hlacks : ∀ event ∈ events, keep event = false → event.LacksNonce := by
    have hdecided : ∀ event ∈ events, keep event = false →
        ∀ topic ∈ event.topic? 1, topic.toNat = 0 ∨ UInt64.size ≤ topic.toNat := by decide +kernel
    exact fun event he hk topic ht => hdecided event he hk topic ht
  have hname : ("C-1-02" : String) = nftIdentifier "C-1" 2 := by decide +kernel
  have hmem : ("C-1-02", burnt) ∈ (r.processLogs pool 7).nfts := hnfts ▸ List.mem_singleton_self _
  obtain ⟨named, nonce, -, hone, habout, -, hsupply⟩ := hcoherent _ hmem
  obtain ⟨rfl, rfl⟩ := hone "C-1" 2 hname
  refine ⟨hnfts, habout, hsupply _ (List.mem_singleton_self _), hlacks, by decide +kernel, ?_⟩
  rw [hignored keep (List.forall_mem_singleton.2 hlacks), hnfts]

end Registry
end ChainIndex
