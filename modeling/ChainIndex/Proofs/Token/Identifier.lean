import ChainIndex.Indexer.Balance
import ChainIndex.Proofs.Bytes.Hex
import ChainIndex.Proofs.Bytes.Word
import ChainIndex.Proofs.Text.Split

/-!
Identifiers of tokens and ids of balances. The digits of a nonce have no dash among them, so the dashes of an
identifier part it into what it was made of, and different things have different names.
-/
namespace ChainIndex

/-- The text denotes the nonce: lowercase hexadecimal digits, an even number of them and more than none, the octets
of which are read as the nonce. -/
structure DenotesNonce (text : String) (nonce : UInt64) : Prop where
  ne_empty : text ≠ ""
  even : text.length % 2 = 0
  lowercase : ∀ c ∈ text.toList, c ∈ "0123456789abcdef".toList
  octets : ∃ bytes, Hex.decode (Utf8.encode text) = .ok bytes ∧ bytes.toNonce? = some nonce

/-- A ticker and a suffix with a dash between them, the only one. -/
def IsTokenName (token : String) : Prop :=
  ∃ ticker suffix, '-' ∉ ticker.toList ∧ '-' ∉ suffix.toList ∧ token = ticker ++ "-" ++ suffix

section Nonce

variable {text : String} {nonce other : UInt64}

theorem Hex.mem_lowercase_of_mem_encodeOctet {b : UInt8} {c : Char} (h : c ∈ encodeOctet b) :
    c ∈ "0123456789abcdef".toList := by
  have hb : b.toNat < 256 := b.toNat_lt
  simp only [encodeOctet, List.mem_cons, List.not_mem_nil, or_false] at h
  rcases h with rfl | rfl
  · exact mem_lowercase_iff.2 ⟨_, by omega, rfl⟩
  · exact mem_lowercase_iff.2 ⟨_, by omega, rfl⟩

theorem Bytes.mem_lowercase_of_mem_hex {bytes : Bytes} {c : Char} (h : c ∈ bytes.hex.toList) :
    c ∈ "0123456789abcdef".toList := by
  rw [hex, String.toList_ofList] at h
  obtain ⟨b, -, hb⟩ := List.mem_flatMap.1 h
  exact Hex.mem_lowercase_of_mem_encodeOctet hb

theorem dash_not_mem_nonceHex (nonce : UInt64) : '-' ∉ (nonceHex nonce).toList := fun h =>
  absurd (Bytes.mem_lowercase_of_mem_hex h) (by decide)

theorem nonceHex_injective : Function.Injective nonceHex := fun _ _ h =>
  UInt64.toNat_inj.1 (Bytes.ofNat_injective (Bytes.hex_injective h))

/-- What denotes the nonce is the hexadecimal text of octets, and these are read as the nonce. -/
theorem denotesNonce_iff : DenotesNonce text nonce ↔
    ∃ bytes : Bytes, text = bytes.hex ∧ bytes ≠ [] ∧ bytes.toNat = nonce.toNat := by
  constructor
  · intro h
    obtain ⟨bytes, htext⟩ := Hex.exists_eq_flatMap text.toList (String.length_toList ▸ h.even) h.lowercase
    have hhex : text = bytes.hex := by rw [Bytes.hex, ← htext, String.ofList_toList]
    obtain ⟨read, hdecode, hnonce⟩ := h.octets
    have hread : (.ok bytes : Except Hex.Fault Bytes) = .ok read := by
      rw [← hdecode, hhex, (Hex.spells_hex bytes).decode]
    obtain rfl := Except.ok.inj hread
    refine ⟨bytes, hhex, fun hnil => h.ne_empty ?_, Bytes.toNonce?_eq_some_iff.1 hnonce⟩
    rw [hhex, hnil]
    rfl
  · rintro ⟨bytes, rfl, hne, hnonce⟩
    have hpos := List.length_pos_iff.2 hne
    have hlength := bytes.length_hex
    refine ⟨fun hempty => ?_, by omega, fun c => Bytes.mem_lowercase_of_mem_hex, bytes,
      (Hex.spells_hex bytes).decode, Bytes.toNonce?_eq_some_iff.2 hnonce⟩
    rw [hempty, String.length_empty] at hlength
    omega

theorem denotesNonce_nonceHex (nonce : UInt64) : DenotesNonce (nonceHex nonce) nonce :=
  denotesNonce_iff.2 ⟨_, rfl, Bytes.ofNat_ne_nil _, Bytes.toNat_ofNat _⟩

/-- Every other text of a nonce is longer. -/
theorem length_nonceHex_lt (h : DenotesNonce text nonce) (hne : text ≠ nonceHex nonce) :
    (nonceHex nonce).length < text.length := by
  obtain ⟨bytes, rfl, hbytes, hnonce⟩ := denotesNonce_iff.1 h
  rw [nonceHex, ← hnonce] at hne ⊢
  have hlt := Bytes.length_ofNat_lt hbytes fun he => hne (congrArg Bytes.hex he)
  rw [Bytes.length_hex, Bytes.length_hex]
  omega

end Nonce

section Parts

variable {address token ticker suffix : String} {nonce : UInt64}

theorem splitAll_nftIdentifier (token : String) (nonce : UInt64) :
    Text.splitAll '-' (nftIdentifier token nonce).toList =
      Text.splitAll '-' token.toList ++ [(nonceHex nonce).toList] := by
  have hlist : (nftIdentifier token nonce).toList = token.toList ++ '-' :: (nonceHex nonce).toList := by
    simp [nftIdentifier, String.toList_append]
  rw [hlist, Text.splitAll_append_sep, Text.splitAll_of_not_mem (dash_not_mem_nonceHex nonce)]

/-- An identifier tells the collection and the nonce, whatever dashes are in the collection's name. -/
theorem nftIdentifier_inj {other : String} {otherNonce : UInt64}
    (h : nftIdentifier token nonce = nftIdentifier other otherNonce) : token = other ∧ nonce = otherNonce := by
  have hparts : Text.splitAll '-' token.toList ++ [(nonceHex nonce).toList] =
      Text.splitAll '-' other.toList ++ [(nonceHex otherNonce).toList] := by
    rw [← splitAll_nftIdentifier, h, splitAll_nftIdentifier]
  obtain ⟨htoken, hnonce⟩ := List.append_inj' hparts rfl
  exact ⟨String.toList_injective (Text.splitAll_injective '-' htoken),
    nonceHex_injective (String.toList_injective (List.singleton_inj.1 hnonce))⟩

theorem length_splitAll_of_isTokenName (h : IsTokenName token) : (Text.splitAll '-' token.toList).length = 2 := by
  obtain ⟨ticker, suffix, hticker, hsuffix, rfl⟩ := h
  have hlist : (ticker ++ "-" ++ suffix).toList = ticker.toList ++ '-' :: suffix.toList := by
    simp [String.toList_append]
  rw [hlist, Text.splitAll_append hticker, Text.splitAll_of_not_mem hsuffix]
  rfl

def nonceParts (nonce : UInt64) : List (List Char) := if nonce = 0 then [] else [(nonceHex nonce).toList]

theorem nonceParts_injective : Function.Injective nonceParts := by
  intro nonce other h
  unfold nonceParts at h
  split at h <;> split at h
  · next hn ho => rw [hn, ho]
  · cases h
  · cases h
  · exact nonceHex_injective (String.toList_injective (List.singleton_inj.1 h))

/-- An address has no dash, so the parts of an id are told from the front. -/
theorem splitAll_balanceId (ha : '-' ∉ address.toList) (token : String) (nonce : UInt64) :
    Text.splitAll '-' (balanceId address token nonce).toList =
      address.toList :: (Text.splitAll '-' token.toList ++ nonceParts nonce) := by
  have hfungible : (address ++ "-" ++ token).toList = address.toList ++ '-' :: token.toList := by
    simp [String.toList_append]
  have hnft : (address ++ "-" ++ token ++ "-" ++ nonceHex nonce).toList =
      address.toList ++ '-' :: (nftIdentifier token nonce).toList := by
    simp [nftIdentifier, String.toList_append]
  unfold balanceId nonceParts
  split
  · rw [hfungible, Text.splitAll_append ha, List.append_nil]
  · rw [hnft, Text.splitAll_append ha, splitAll_nftIdentifier]

/-- The id of a balance tells the address, the token and the nonce. -/
theorem balanceId_inj {otherAddress other : String} {otherNonce : UInt64} (ha : '-' ∉ address.toList)
    (hb : '-' ∉ otherAddress.toList) (ht : IsTokenName token) (ho : IsTokenName other)
    (h : balanceId address token nonce = balanceId otherAddress other otherNonce) :
    address = otherAddress ∧ token = other ∧ nonce = otherNonce := by
  have hparts : address.toList :: (Text.splitAll '-' token.toList ++ nonceParts nonce) =
      otherAddress.toList :: (Text.splitAll '-' other.toList ++ nonceParts otherNonce) := by
    rw [← splitAll_balanceId ha, h, splitAll_balanceId hb]
  obtain ⟨haddress, hrest⟩ := List.cons.inj hparts
  have hlength : (Text.splitAll '-' token.toList).length = (Text.splitAll '-' other.toList).length := by
    rw [length_splitAll_of_isTokenName ht, length_splitAll_of_isTokenName ho]
  obtain ⟨htoken, hnonce⟩ := List.append_inj hrest hlength
  exact ⟨String.toList_injective haddress, String.toList_injective (Text.splitAll_injective '-' htoken),
    nonceParts_injective hnonce⟩

/-- The identifier of a non-fungible token has a dash more than the name of any token. -/
theorem nftIdentifier_ne_token {other : String} (ht : IsTokenName token) (nonce : UInt64) (ho : IsTokenName other) :
    nftIdentifier token nonce ≠ other := by
  intro h
  have hlength := congrArg List.length (splitAll_nftIdentifier token nonce)
  rw [h, length_splitAll_of_isTokenName ho, List.length_append, length_splitAll_of_isTokenName ht] at hlength
  cases hlength

end Parts

/-- No two things have one name: the digits of a nonce are its shortest text; identifiers of non-fungible tokens tell
the collection and the nonce; and where addresses have no dash and tokens have one, ids of balances tell the
address, the token and the nonce, and no non-fungible token is named as a token. -/
theorem names_never_collide :
    (∀ nonce, DenotesNonce (nonceHex nonce) nonce ∧
      ∀ text, DenotesNonce text nonce → text ≠ nonceHex nonce → (nonceHex nonce).length < text.length) ∧
    (∀ token nonce other otherNonce,
      nftIdentifier token nonce = nftIdentifier other otherNonce → token = other ∧ nonce = otherNonce) ∧
    (∀ address token nonce otherAddress other otherNonce, '-' ∉ address.toList → '-' ∉ otherAddress.toList →
      IsTokenName token → IsTokenName other →
      balanceId address token nonce = balanceId otherAddress other otherNonce →
        address = otherAddress ∧ token = other ∧ nonce = otherNonce) ∧
    (∀ token nonce other, IsTokenName token → IsTokenName other → nftIdentifier token nonce ≠ other) :=
  ⟨fun nonce => ⟨denotesNonce_nonceHex nonce, fun _ => length_nonceHex_lt⟩,
    fun _ _ _ _ => nftIdentifier_inj,
    fun _ _ _ _ _ _ => balanceId_inj,
    fun _ nonce _ ht ho => nftIdentifier_ne_token ht nonce ho⟩

/-- A text with a zero octet too many, and balances of one address, of a token as a whole and of a nonce of it. -/
theorem names_never_collide_padded :
    (DenotesNonce "000100" 256 ∧ "000100" ≠ nonceHex 256 ∧ (nonceHex 256).length < "000100".length) ∧
    (nftIdentifier "TKN-ab" 256 = nftIdentifier ("TKN" ++ "-ab") (255 + 1) ∧ "TKN-ab" = "TKN" ++ "-ab") ∧
    ('-' ∉ "aaaa".toList ∧ IsTokenName "TKN-ab" ∧ balanceId "aaaa" "TKN-ab" 0 ≠ balanceId "aaaa" "TKN-ab" 5) ∧
    (IsTokenName "NFT-05" ∧ nftIdentifier "TKN-ab" 5 ≠ "NFT-05") := by
  obtain ⟨hnonce, hnft, hbalance, htoken⟩ := names_never_collide
  have hoctets : Bytes.ofNat (256 : UInt64).toNat = [1, 0] := by simp [Bytes.ofNat, Bytes.digits256]
  have hhex : nonceHex 256 = "0100" := congrArg Bytes.hex hoctets
  have htext : DenotesNonce "000100" 256 := denotesNonce_iff.2 ⟨[0, 1, 0], by decide, by decide, by decide⟩
  have hne : "000100" ≠ nonceHex 256 := by rw [hhex]; decide
  have haddress : '-' ∉ "aaaa".toList := by decide
  have hname : IsTokenName "TKN-ab" := ⟨"TKN", "ab", by decide, by decide, by decide⟩
  have hother : IsTokenName "NFT-05" := ⟨"NFT", "05", by decide, by decide, by decide⟩
  refine ⟨⟨htext, hne, (hnonce 256).2 "000100" htext hne⟩, ⟨rfl, (hnft "TKN-ab" 256 _ (255 + 1) rfl).1⟩,
    ⟨haddress, hname, fun h => ?_⟩, hother, htoken "TKN-ab" 5 "NFT-05" hname hother⟩
  obtain ⟨-, -, hzero⟩ := hbalance "aaaa" "TKN-ab" 0 "aaaa" "TKN-ab" 5 haddress haddress hname hname h
  exact absurd hzero (by decide)

end ChainIndex
