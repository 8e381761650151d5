import ChainIndex.Toml.Scan

/-!
Reading TOML texts into tables. Integers, strings and tables are kept, of every other value that it
is there: a key or a table may be defined only once.
-/
namespace ChainIndex
namespace Toml

inductive Node where
  | int (z : Int)
  | text (s : String)
  /-- A truth value, a floating-point number or a moment. -/
  | scalar
  /-- An array between brackets, of which only matters whether anything is in it. -/
  | array (isEmpty : Bool)
  /-- A table between braces; nothing is added to it later. -/
  | inline (entries : List (String × Node))
  /-- A table that is `implied` while only keys below it were named, and `dotted` when the dots of a
  key made it. -/
  | table (implied dotted : Bool) (entries : List (String × Node))
  /-- An array of tables made by headers; the last of them is open to more keys. -/
  | tables (last : List (String × Node))
deriving Inhabited

abbrev Entries := List (String × Node)

namespace Node

def isHollow : Node → Bool
  | array isEmpty => isEmpty
  | inline entries => entries.isEmpty
  | table _ _ entries => entries.isEmpty
  | _ => false

/-- A bare name out of a list of choices: a string, or a table with that name for its only key and
nothing under it. -/
def choice? : Node → Option String
  | text name => some name
  | inline [(name, node)] => if node.isHollow then some name else none
  | table _ _ [(name, node)] => if node.isHollow then some name else none
  | _ => none

def text? : Node → Option String
  | text s => some s
  | _ => none

def natBelow? (bound : Nat) : Node → Option Nat
  | int z => if 0 ≤ z ∧ z < bound then some z.toNat else none
  | _ => none

def uint32? (node : Node) : Option UInt32 := (node.natBelow? UInt32.size).map Nat.toUInt32

def uint64? (node : Node) : Option UInt64 := (node.natBelow? UInt64.size).map Nat.toUInt64

end Node

namespace Entries

def find? (entries : Entries) (key : String) : Option Node :=
  (List.find? (fun entry => entry.1 == key) entries).map Prod.snd

def put (entries : Entries) (key : String) (node : Node) : Entries :=
  (key, node) :: entries.filter (·.1 != key)

end Entries

/-- Changes the table at the end of a path, making implied tables on the way. Dots may not reach
into a table with a header of its own. The change is told whether it is in a dotted table. -/
def within (dots : Bool) (f : Bool → Entries → Option Entries) :
    List String → Bool → Entries → Option Entries
  | [], dotted, entries => f dotted entries
  | key :: path, _, entries =>
    match Entries.find? entries key with
    | none => do
      let inner ← within dots f path dots []
      return Entries.put entries key (.table true dots inner)
    | some (.table implied dotted inner) => do
      if dots && !implied then none
      else
        let inner ← within dots f path dotted inner
        return Entries.put entries key (.table implied dotted inner)
    | some (.tables last) => do
      let last ← within dots f path false last
      return Entries.put entries key (.tables last)
    | some _ => none

def define (key : List String) (node : Node) (entries : Entries) : Option Entries :=
  let path := key.dropLast
  within true (fun dotted inner =>
    if dotted == path.isEmpty then none
    else
      match key.getLast? with
      | none => none
      | some name =>
        if (Entries.find? inner name).isSome then none
        else some (Entries.put inner name node))
    path false entries

def openTable (path : List String) (entries : Entries) : Option Entries :=
  within false (fun _ inner =>
    match path.getLast? with
    | none => none
    | some name =>
      match Entries.find? inner name with
      | none => some (Entries.put inner name (.table false false []))
      | some (.table true false content) => some (Entries.put inner name (.table false false content))
      | some _ => none) path.dropLast false entries

def openElement (path : List String) (entries : Entries) : Option Entries :=
  within false (fun _ inner =>
    match path.getLast? with
    | none => none
    | some name =>
      match Entries.find? inner name with
      | none => some (Entries.put inner name (.tables []))
      | some (.tables _) => some (Entries.put inner name (.tables []))
      | some _ => none) path.dropLast false entries

def isScalarChar (c : Char) : Bool := c.isAlphanum || ['+', '-', '_', '.', ':'].contains c

/-- A number, a truth value or a moment. A date and a time may have a blank between them. -/
def scanScalar (cs : List Char) : Option (Node × List Char) :=
  let first := cs.takeWhile isScalarChar
  let rest := cs.dropWhile isScalarChar
  let (token, rest) :=
    match isDate first, rest with
    | true, ' ' :: c :: more =>
      if c.isDigit then
        (first ++ ' ' :: (c :: more).takeWhile isScalarChar, (c :: more).dropWhile isScalarChar)
      else (first, rest)
    | _, _ => (first, rest)
  if token == ['t', 'r', 'u', 'e'] || token == ['f', 'a', 'l', 's', 'e'] then some (.scalar, rest)
  else
    match integer? token with
    | some z => if -(intBound : Int) ≤ z ∧ z < intBound then some (.int z, rest) else none
    | none => if isFloat token || isMoment token then some (.scalar, rest) else none

mutual

def scanValue : (fuel depth : Nat) → List Char → Option (Node × List Char)
  | 0, _, _ => none
  | fuel + 1, depth, cs =>
    match cs with
    | '[' :: rest =>
      if depth < depthLimit then
        match skipLines rest with
        | ']' :: rest => some (.array true, rest)
        | rest => (scanItems fuel (depth + 1) rest).map (.array false, ·)
      else none
    | '{' :: rest =>
      if depth < depthLimit then
        match skipBlanks rest with
        | '}' :: rest => some (.inline [], rest)
        | rest =>
          (scanEntries fuel (depth + 1) [] rest).map fun (entries, rest) => (.inline entries, rest)
      else none
    | '"' :: _ => (scanText cs).map fun (text, rest) => (.text text, rest)
    | '\'' :: _ => (scanText cs).map fun (text, rest) => (.text text, rest)
    | _ => scanScalar cs

/-- The items of an array after its bracket; lines may break anywhere, and a last comma may stand. -/
def scanItems : (fuel depth : Nat) → List Char → Option (List Char)
  | 0, _, _ => none
  | fuel + 1, depth, cs =>
    match skipLines cs with
    | ']' :: rest => some rest
    | cs =>
      match scanValue fuel depth cs with
      | none => none
      | some (_, rest) =>
        match skipLines rest with
        | ',' :: rest => scanItems fuel depth rest
        | ']' :: rest => some rest
        | _ => none

def scanEntries : (fuel depth : Nat) → Entries → List Char → Option (Entries × List Char)
  | 0, _, _, _ => none
  | fuel + 1, depth, entries, cs =>
    match scanKey cs with
    | some (key, '=' :: rest) =>
      match scanValue fuel depth (skipBlanks rest) with
      | none => none
      | some (node, rest) =>
        match define key node entries with
        | none => none
        | some entries =>
          match skipBlanks rest with
          | ',' :: rest => scanEntries fuel depth entries rest
          | '}' :: rest => some (entries, rest)
          | _ => none
    | _ => none

end

/-- One statement: the tables afterwards, the path of the table that is open, and the rest. -/
def statement (fuel : Nat) (entries : Entries) (path : List String) (cs : List Char) :
    Option (Entries × List String × List Char) :=
  match cs with
  | '[' :: '[' :: rest => do
    let (key, rest) ← scanKey rest
    match rest with
    | ']' :: ']' :: rest => return (← openElement key entries, key, ← statementEnd? rest)
    | _ => none
  | '[' :: rest => do
    let (key, rest) ← scanKey rest
    match rest with
    | ']' :: rest => return (← openTable key entries, key, ← statementEnd? rest)
    | _ => none
  | _ => do
    let (key, rest) ← scanKey cs
    match rest with
    | '=' :: rest =>
      let (node, rest) ← scanValue fuel 0 (skipBlanks rest)
      let entries ← within false (fun _ inner => define key node inner) path false entries
      return (entries, path, ← statementEnd? rest)
    | _ => none

def statements : (fuel : Nat) → Entries → List String → List Char → Option Entries
  | 0, _, _, _ => none
  | fuel + 1, entries, path, cs =>
    match skipLines cs with
    | [] => some entries
    | cs =>
      match statement fuel entries path cs with
      | some (entries, path, rest) => statements fuel entries path rest
      | none => none

/-- The table that a text describes; a byte order mark before it is passed over. Every nested step
and every statement takes a character, so the length of the text bounds them. -/
def parse? (text : String) : Option Entries :=
  let cs :=
    match text.toList with
    | '\uFEFF' :: rest => rest
    | cs => cs
  statements (cs.length + 1) [] [] cs

end Toml
end ChainIndex
