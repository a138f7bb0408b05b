import Offside.Value.Container

/-!
# Equality of values

Numbers are equal by value, across integers and floats. Lists are equal element by element, and
dictionaries key by key in whatever order. Functions, classes and instances equal only themselves.
-/

namespace Offside.Value

/-- Equality of values that hold no others. -/
def scalarEquals : Value → Value → Bool
  | integer a, integer b => a == b
  | float x, float y => x == y
  | integer a, float y => a.toFloat == y
  | float x, integer b => b.toFloat == x
  | string a, string b => a == b
  | boolean a, boolean b => a == b
  | null, null => true
  | void, void => true
  | function f, function g => f.identity == g.identity
  | builtin b, builtin c => b.identity == c.identity
  | classObject c, classObject d => c.identity == d.identity
  | classInstance i, classInstance j => i.identity == j.identity
  | _, _ => false

/-- Whether two values are equal if the pairs `active` of containers are. Meeting one of these
again tells nothing apart, and going through `depth` more pairs is enough when `depth` is the number
of all others. -/
def equalsWithin (s : Store) : Nat → List (Container × Container) → Value → Value → Bool
  | 0, _, v, w => v.scalarEquals w
  | depth + 1, active, v, w =>
    match v, w with
    | list a, list b =>
      if a = b ∨ active.contains (.list a, .list b) then true
      else
        let xs := (s.list a).toList
        let ys := (s.list b).toList
        let active := (.list a, .list b) :: active
        xs.length == ys.length &&
          (xs.zip ys).all fun (x, y) => equalsWithin s depth active x y
    | dictionary a, dictionary b =>
      if a = b ∨ active.contains (.dictionary a, .dictionary b) then true
      else
        let d := s.dictionary a
        let e := s.dictionary b
        let active := (.dictionary a, .dictionary b) :: active
        d.size == e.size &&
          d.entries.toList.all fun (k, x) =>
            match e.get? k with
            | some y => equalsWithin s depth active x y
            | none => false
    | v, w => v.scalarEquals w

def equals (s : Store) (v w : Value) : Bool :=
  equalsWithin s (s.containers * s.containers + 1) [] v w

end Offside.Value
