import ChainIndex.Store.Basic

/-!
Procedures over a store, as data: each store call is one step, and what comes next may depend on its
answer. So a procedure can be run in one go, or step by step with others in between, and over any
store that answers calls.
-/
namespace ChainIndex

inductive StoreCall where
  | multiGet (index : String) (ids : List String)
  | bulkUpsert (index : String) (items : List WriteItem)
  | scroll (index : String) (query : Query)
  | deleteByQuery (index : String) (query : Query)

abbrev StoreCall.Result : StoreCall → Type
  | multiGet _ _ => List (Option Value)
  | bulkUpsert _ _ => Unit
  | scroll _ _ => List (List Document)
  | deleteByQuery _ _ => Nat

abbrev StoreCall.Reply (call : StoreCall) : Type := Except StoreError call.Result

def Store.answer (s : Store) : (call : StoreCall) → call.Reply × Store
  | .multiGet index ids => (s.multiGet index ids, s)
  | .bulkUpsert index items =>
    match s.bulkUpsert index items with
    | .ok after => (.ok (), after)
    | .error e => (.error e, s)
  | .scroll index query => (s.scrollPages index query, s)
  | .deleteByQuery index query =>
    match s.deleteByQuery index query with
    | .ok (count, after) => (.ok count, after)
    | .error e => (.error e, s)

inductive Session (α : Type) where
  | done (result : α)
  | call (call : StoreCall) (next : call.Reply → Session α)

namespace Session

variable {α β σ : Type}

def bind : Session α → (α → Session β) → Session β
  | done x, f => f x
  | call c next, f => call c fun reply => bind (next reply) f

instance : Monad Session where
  pure := done
  bind := bind

def runWith (answer : σ → (c : StoreCall) → c.Reply × σ) : Session α → σ → α × σ
  | done x, s => (x, s)
  | call c next, s => runWith answer (next (answer s c).1) (answer s c).2

def run (p : Session α) (s : Store) : α × Store := p.runWith Store.answer s

def step (s : Store) : Session α → Store × Session α
  | done x => (s, done x)
  | call c next => ((s.answer c).2, next (s.answer c).1)

theorem runWith_bind (answer : σ → (c : StoreCall) → c.Reply × σ) (p : Session α)
    (f : α → Session β) (s : σ) :
    (p.bind f).runWith answer s = (f (p.runWith answer s).1).runWith answer (p.runWith answer s).2 := by
  induction p generalizing s with
  | done x => rfl
  | call c next ih => exact ih _ _

def all : List (Session α) → Session (List α)
  | [] => done []
  | p :: rest => p.bind fun x => (all rest).bind fun xs => done (x :: xs)

end Session

abbrev StoreM := ExceptT StoreError Session

namespace StoreM

def perform (call : StoreCall) : StoreM call.Result := ExceptT.mk (.call call .done)

def multiGet (index : String) (ids : List String) : StoreM (List (Option Value)) :=
  perform (.multiGet index ids)

def bulkUpsert (index : String) (items : List WriteItem) : StoreM Unit := perform (.bulkUpsert index items)

def scroll (index : String) (query : Query) : StoreM (List Document) := do
  let found : List (List Document) ← perform (.scroll index query)
  return found.flatten

def deleteByQuery (index : String) (query : Query) : StoreM Nat := perform (.deleteByQuery index query)

end StoreM

def firstError {α : Type} : List (Except StoreError α) → Except StoreError Unit
  | [] => .ok ()
  | .ok _ :: rest => firstError rest
  | .error e :: _ => .error e

end ChainIndex
