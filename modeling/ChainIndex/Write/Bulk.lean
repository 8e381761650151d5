import ChainIndex.Write.Action

/-!
Writes gathered into requests of a limited size. A write that alone is beyond the limit gets a
request of its own.
-/
namespace ChainIndex

structure Bulk where
  limit : Nat
  finished : List (List WriteItem) := []
  filling : List WriteItem := []
  size : Nat := 0

namespace Bulk

def push (b : Bulk) (item : WriteItem) : Bulk :=
  if b.filling.isEmpty then { b with filling := [item], size := item.size }
  else if b.size + item.size ≤ b.limit then
    { b with filling := b.filling ++ [item], size := b.size + item.size }
  else { b with finished := b.finished ++ [b.filling], filling := [item], size := item.size }

def chunks (b : Bulk) : List (List WriteItem) :=
  if b.filling.isEmpty then b.finished else b.finished ++ [b.filling]

def isEmpty (b : Bulk) : Bool := b.chunks.isEmpty

def length (b : Bulk) : Nat := b.chunks.flatten.length

def ofList (limit : Nat) (items : List WriteItem) : Bulk := items.foldl push { limit }

end Bulk
end ChainIndex
