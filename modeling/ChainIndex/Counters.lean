/-!
Counters of a closed set of kinds, reported in a fixed order. They wrap at 2^64.
-/
namespace ChainIndex

class CounterKind (κ : Type) where
  all : List κ
  name : κ → String

structure Counters (κ : Type) where
  counts : List (κ × UInt64)
deriving DecidableEq, Repr

namespace Counters

variable {κ : Type}

def start [CounterKind κ] : Counters κ := ⟨(CounterKind.all : List κ).map (·, 0)⟩

variable [DecidableEq κ]

def get (c : Counters κ) (kind : κ) : UInt64 :=
  match c.counts.find? (·.1 = kind) with
  | some (_, count) => count
  | none => 0

def add (c : Counters κ) (kind : κ) (amount : UInt64) : Counters κ :=
  ⟨c.counts.map fun (k, count) => if k = kind then (k, count + amount) else (k, count)⟩

def increment (c : Counters κ) (kind : κ) : Counters κ := c.add kind 1

def snapshot [CounterKind κ] (c : Counters κ) : List (String × UInt64) :=
  (CounterKind.all : List κ).map fun kind => (CounterKind.name kind, c.get kind)

def text [CounterKind κ] (c : Counters κ) : String :=
  " ".intercalate (c.snapshot.map fun (name, count) => name ++ "=" ++ toString count)

def mapText [CounterKind κ] (c : Counters κ) : String :=
  let entries := c.snapshot.map fun (name, count) => "\"" ++ name ++ "\": " ++ toString count
  "\x7b" ++ ", ".intercalate entries ++ "\x7d"

end Counters
end ChainIndex
