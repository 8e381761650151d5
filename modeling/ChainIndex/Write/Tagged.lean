import ChainIndex.Document.Value
import ChainIndex.Json.Slots

/-!
Forms with a tag that says what their content is. Content that comes before its tag is held back
until the tag is known; what is held back is read by slightly wider rules than what is not.
-/
namespace ChainIndex
namespace Json

/-- A tag under a name of its own: a bare variant name; in what was held back, an empty object may
stand for null. -/
def tagName? (held : Bool) : Json → Option String
  | .obj [(name, .obj [])] => if held then some name else none
  | j => j.variantName?

/-- A tag at the head of a form: one of the names or, in what was held back, its position among
them. -/
def headTag? (names : List String) (held : Bool) : Json → Option String
  | .str name => some name
  | .int (.ofNat n) => if held then names[n]? else none
  | _ => none

/-- A tagged form, which may itself be `held` back: the tag, the content when there is one, and
whether that was held back. The form is an object with both by name, or an array of the two. Of held
content all must be readable. -/
def tagged? (names : List String) (tag content : String) (room : Nat) (held : Bool) :
    Json → Option (String × Option Json × Bool)
  | .arr [t, c] => do return (← t.headTag? names held, some c, held)
  | .obj members => do
    let t ← (← slot? members tag).required? (tagName? held)
    match ← slot? members content with
    | .given c =>
      let first := members.find? fun (name, _) => name == tag || name == content
      let early := first.map Prod.fst == some content
      if early && !c.readable room then none else return (t, some c, held || early)
    | _ => return (t, none, held)
  | _ => none

end Json
end ChainIndex
