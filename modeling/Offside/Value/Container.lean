import Offside.Store

/-!
# Containers

Lists and dictionaries can hold themselves. What walks through their elements therefore keeps the
containers that it is inside of, of which there are no more than the store has.
-/

namespace Offside

inductive Container where
  | list (id : ListId)
  | dictionary (id : DictionaryId)
deriving DecidableEq, Repr

/-- How many containers the store has. -/
def Store.containers (s : Store) : Nat := s.lists.size + s.dictionaries.size

def Value.isTruthy (s : Store) : Value → Bool
  | .null | .void => false
  | .boolean b => b
  | .integer n => n != 0
  | .float x => x != 0.0
  | .string text => !text.isEmpty
  | .list id => !(s.list id).isEmpty
  | .dictionary id => (s.dictionary id).size != 0
  | _ => true

end Offside
