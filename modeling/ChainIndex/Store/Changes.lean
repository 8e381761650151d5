import ChainIndex.Store.Basic
import ChainIndex.Store.Index

/-!
What differs between two states of a store.
-/
namespace ChainIndex

namespace Store

/-- The documents of an index that are new or different, and none for those that are gone. -/
def indexChanges (before after : Dict Value) : Dict (Option Value) :=
  let changed := after.filter fun (id, doc) => !(before.find? id).any (·.same doc)
  let removed := before.filter fun (id, _) => !after.has id
  Dict.ofList ((changed.map fun (id, doc) => (id, some doc)) ++ removed.map fun (id, _) => (id, none))

def changes (before after : Store) : Dict (Dict (Option Value)) :=
  (Dict.ofList (Index.all.map fun name => (name, indexChanges (before.index name) (after.index name)))).filter
    fun (_, changed) => !changed.isEmpty

end Store
end ChainIndex
