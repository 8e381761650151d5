/-!
Written TOML strings. A string is written on one line in double quotes, and in another way only when
it would need escapes there.
-/
namespace ChainIndex
namespace Toml

def longestRun (c : Char) (cs : List Char) : Nat :=
  (cs.foldl (fun (run, best) d => if d = c then (run + 1, max best (run + 1)) else (0, best)) (0, 0)).2

def needsCodes (cs : List Char) : Bool :=
  cs.any fun c => (c.toNat < 0x20 && c != '\t' && c != '\n') || c.toNat == 0x7F

def hexDigits (n : Nat) : List Char :=
  let digits := (Nat.toDigits 16 n).map Char.toUpper
  List.replicate (4 - digits.length) '0' ++ digits

/-- A character in double quotes; `free` quotes in a row and, in a long string, line feeds stand for
themselves. -/
def escapeAll (long : Bool) (free run : Nat) : List Char → List Char
  | [] => []
  | '"' :: rest =>
    if run < free then '"' :: escapeAll long free (run + 1) rest
    else '\\' :: '"' :: escapeAll long free 0 rest
  | c :: rest =>
    let written :=
      match c with
      | '\x08' => ['\\', 'b']
      | '\t' => ['\\', 't']
      | '\n' => if long then ['\n'] else ['\\', 'n']
      | '\x0c' => ['\\', 'f']
      | '\r' => ['\\', 'r']
      | '\\' => ['\\', '\\']
      | c => if c.toNat < 0x20 ∨ c.toNat = 0x7F then '\\' :: 'u' :: hexDigits c.toNat else [c]
    written ++ escapeAll long free 0 rest

def writeText (text : String) : List Char :=
  let cs := text.toList
  let single := longestRun '\'' cs
  let double := longestRun '"' cs
  let codes := needsCodes cs
  let backslash := cs.contains '\\'
  let lines := cs.contains '\n'
  let start := if lines then ['\n'] else []
  let basic := '"' :: (escapeAll false 0 0 cs ++ ['"'])
  let longBasic := ['"', '"', '"'] ++ start ++ escapeAll true 2 0 cs ++ ['"', '"', '"']
  if !codes && !backslash && double == 0 && !lines then basic
  else if !codes && single == 0 && !lines then '\'' :: (cs ++ ['\''])
  else if !codes && !backslash && double ≤ 2 then longBasic
  else if !codes && single ≤ 2 then ['\'', '\'', '\''] ++ start ++ cs ++ ['\'', '\'', '\'']
  else if lines then longBasic
  else basic

end Toml
end ChainIndex
