import ChainIndex.Proofs.Accumulator.Roles
import ChainIndex.Proofs.Indexer.Tokens

/-!
The lists of roles in the documents of tokens. Roles are written at paths, and a path is cut at its dots: the list of
a role follows the last event for each address as long as no granted role goes on with a dot where its name ends, and a
role whose name has a dot gets no list of its own.
-/
namespace ChainIndex
namespace TokenWrites

open TokenAccumulator (holdersIn Within)

/-- The lists of roles after a block are those that its changes of the token leave. -/
theorem holdersIn_tokenAction (acc : BlockAccumulators) (token role : String) {stored : Option Value}
    (hd : ∀ doc, stored = some doc → doc.IsDocument) :
    holdersIn ((tokenAction acc token).apply stored) role =
      Value.itemsOf (Value.under (TokenAccumulator.onRoles (acc.ofToken token).roles (Value.under stored "roles"))
        role) := by
  rw [holdersIn, under_tokenAction (by decide), TokenAccumulator.get?_allMutations_roles (Value.isDocument_getD hd),
    Value.get?_getD_empty]

variable {r : Registry}

/-- An address is listed under a role after a block if the last accepted event for the token, the role and the address
grants it, or there is none and it was listed before. A role with a dot in its name keeps the list that stands under its
whole name, if any, and no address is listed under a role where some address is last granted a role that goes on after
it with a dot. -/
theorem mem_holdersIn_tokenAction (hr : .roles ∈ r.classifiers) (pool : Pool) (timestamp : UInt64)
    (token role address : String) {stored : Option Value} (hd : ∀ doc, stored = some doc → doc.IsDocument) :
    .str address ∈ holdersIn ((tokenAction (r.processLogs pool timestamp) token).apply stored) role ↔
      if '.' ∈ role.toList then .str address ∈ holdersIn stored role
      else
        (∀ other, Within role other → ∀ holder,
          lastGrant? (r.roleChanges pool timestamp token) other holder ≠ some true) ∧
        (lastGrant? (r.roleChanges pool timestamp token) role address = some true ∨
          lastGrant? (r.roleChanges pool timestamp token) role address = none ∧
            .str address ∈ holdersIn stored role) := by
  have hordered := (r.gathers_processLogs pool timestamp).ordered_ofToken token
  rw [holdersIn_tokenAction _ token role hd, TokenAccumulator.mem_holders_onRoles hordered]
  simp only [Registry.grant?_processLogs hr, holdersIn]

/-- Two grants to an account: of a role, and of one that goes on after it with a dot. -/
theorem mem_holdersIn_tokenAction_dotted :
    let r : Registry := {}
    let grant (role : String) : Event :=
      { address := [0xaa], identifier := "DCDTSetRole", topics := [Utf8.encode "T", [], [], Utf8.encode role] }
    let pool : Pool := { logs := [{ events := [grant "DCDTRoleA", grant "DCDTRoleA.x"] }] }
    let changes := r.roleChanges pool 0 "T"
    let later := (tokenAction (r.processLogs pool 0) "T").apply none
    .roles ∈ r.classifiers ∧
      lastGrant? changes "DCDTRoleA" "aa" = some true ∧ .str "aa" ∉ holdersIn later "DCDTRoleA" ∧
      lastGrant? changes "DCDTRoleA.x" "aa" = some true ∧ .str "aa" ∉ holdersIn later "DCDTRoleA.x" := by
  intro r grant pool changes later
  have hr : .roles ∈ r.classifiers := by decide
  have hd : ∀ doc, (none : Option Value) = some doc → doc.IsDocument := nofun
  have hfirst : lastGrant? changes "DCDTRoleA" "aa" = some true := by decide +kernel
  have hsecond : lastGrant? changes "DCDTRoleA.x" "aa" = some true := by decide +kernel
  refine ⟨hr, hfirst, fun hm => ?_, hsecond, fun hm => ?_⟩
  · have hlisted := (mem_holdersIn_tokenAction hr pool 0 "T" "DCDTRoleA" "aa" hd).1 hm
    rw [if_neg (by decide)] at hlisted
    exact hlisted.1 "DCDTRoleA.x" ⟨"x", by decide⟩ "aa" hsecond
  · have hlisted := (mem_holdersIn_tokenAction hr pool 0 "T" "DCDTRoleA.x" "aa" hd).1 hm
    rw [if_pos (by decide)] at hlisted
    cases hlisted

end TokenWrites
end ChainIndex
