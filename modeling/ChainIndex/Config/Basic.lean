import ChainIndex.Json.Slots
import ChainIndex.Toml.Reader
import ChainIndex.Toml.Printer
import ChainIndex.Text.Utf8

/-!
The configuration of an indexer, with its TOML and JSON forms.
-/
namespace ChainIndex

inductive LogFormat where
  | human
  | json
deriving DecidableEq, Repr, Inhabited

namespace LogFormat

def label : LogFormat → String
  | human => "human"
  | json => "json"

def ofLabel? (text : String) : Option LogFormat := [human, json].find? (·.label == text)

def lower (text : String) : String := text.map Char.toLower

def parse? (text : String) : Option LogFormat := ofLabel? (lower text)

def unknownMessage (text : String) : String :=
  "unknown log format: " ++ lower text ++ " (expected \"human\" or \"json\")"

end LogFormat

structure Config where
  /-- The shard whose blocks are indexed. -/
  shard : UInt32 := 0
  /-- How many regular shards the chain has. -/
  shardCount : UInt32 := 3
  denomination : UInt32 := 18
  /-- The octets of one bulk request. -/
  bulkLimit : UInt64 := 4194304
  /-- How many indices are flushed at the same time. -/
  flushLimit : UInt64 := 4
  logFormat : LogFormat := .human
  logLevel : String := "info"
deriving DecidableEq, Repr, Inhabited

inductive ConfigError where
  | noShards
  | unknownShard (shard shardCount : UInt32)
  | noFlushes
  | noBulk
deriving DecidableEq, Repr

def ConfigError.message : ConfigError → String
  | .noShards => "config error: num_of_shards must be positive"
  | .unknownShard shard count =>
    "config error: self_shard_id " ++ toString shard ++ " is not one of the " ++ toString count ++
      " shards or the metachain"
  | .noFlushes => "config error: max_concurrent_flushes must be positive"
  | .noBulk => "config error: bulk_request_max_size must be positive"

namespace Config

/-- The metachain's number is outside those of the regular shards. -/
def metachain : UInt32 := 0xFFFFFFFF

def validate (c : Config) : Except ConfigError Unit :=
  if c.shardCount = 0 then .error .noShards
  else if c.shardCount ≤ c.shard ∧ c.shard ≠ metachain then .error (.unknownShard c.shard c.shardCount)
  else if c.flushLimit = 0 then .error .noFlushes
  else if c.bulkLimit = 0 then .error .noBulk
  else .ok ()

def fieldNames : List String :=
  ["self_shard_id", "num_of_shards", "denomination", "bulk_request_max_size", "max_concurrent_flushes",
    "log_format", "log_level"]

def toJson (c : Config) : Json :=
  .obj [("self_shard_id", .nat c.shard.toNat), ("num_of_shards", .nat c.shardCount.toNat),
    ("denomination", .nat c.denomination.toNat), ("bulk_request_max_size", .nat c.bulkLimit.toNat),
    ("max_concurrent_flushes", .nat c.flushLimit.toNat), ("log_format", .str c.logFormat.label),
    ("log_level", .str c.logLevel)]

def ofJson? (j : Json) : Option Config := do
  let [shard, shardCount, denomination, bulkLimit, flushLimit, logFormat, logLevel] ←
    j.record? fieldNames | none
  let standard : Config := {}
  return {
    shard := ← shard.orElse? standard.shard Json.uint32?
    shardCount := ← shardCount.orElse? standard.shardCount Json.uint32?
    denomination := ← denomination.orElse? standard.denomination Json.uint32?
    bulkLimit := ← bulkLimit.orElse? standard.bulkLimit Json.uint64?
    flushLimit := ← flushLimit.orElse? standard.flushLimit Json.uint64?
    logFormat := ← logFormat.orElse? standard.logFormat fun j => j.variantName?.bind LogFormat.ofLabel?
    logLevel := ← logLevel.orElse? standard.logLevel Json.str? }

def ofEntries? (entries : Toml.Entries) : Option Config := do
  let setting {α : Type} (name : String) (standard : α) (read : Toml.Node → Option α) : Option α :=
    match Toml.Entries.find? entries name with
    | none => some standard
    | some node => read node
  let standard : Config := {}
  return {
    shard := ← setting "self_shard_id" standard.shard Toml.Node.uint32?
    shardCount := ← setting "num_of_shards" standard.shardCount Toml.Node.uint32?
    denomination := ← setting "denomination" standard.denomination Toml.Node.uint32?
    bulkLimit := ← setting "bulk_request_max_size" standard.bulkLimit Toml.Node.uint64?
    flushLimit := ← setting "max_concurrent_flushes" standard.flushLimit Toml.Node.uint64?
    logFormat := ← setting "log_format" standard.logFormat fun node => node.choice?.bind LogFormat.ofLabel?
    logLevel := ← setting "log_level" standard.logLevel Toml.Node.text? }

def ofToml? (text : String) : Option Config := (Toml.parse? text).bind ofEntries?

def ofFile? (content : Option Bytes) : Option Config := (content.bind Utf8.decode?).bind ofToml?

def toToml? (c : Config) : Option String :=
  let int (name : String) (n : Nat) : Option String :=
    if n < Toml.intBound then some (name ++ " = " ++ toString n ++ "\n") else none
  let text (name value : String) : String := name ++ " = " ++ String.ofList (Toml.writeText value) ++ "\n"
  do
    return (← int "self_shard_id" c.shard.toNat) ++ (← int "num_of_shards" c.shardCount.toNat) ++
      (← int "denomination" c.denomination.toNat) ++
      (← int "bulk_request_max_size" c.bulkLimit.toNat) ++
      (← int "max_concurrent_flushes" c.flushLimit.toNat) ++
      text "log_format" c.logFormat.label ++ text "log_level" c.logLevel

end Config
end ChainIndex
