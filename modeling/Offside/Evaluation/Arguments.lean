import Offside.Store.Scope

/-!
# Binding arguments to parameters

A call opens a scope on top of the closure, where every parameter gets exactly one value.
-/

namespace Offside

namespace Function

def arityFault (f : Function) (given : Nat) : Fault :=
  .invalidFunctionCall f.definition.name given f.definition.parameters.length

/-- Defines the first parameters with the positional arguments. -/
def bindPositional (scope : Scope) : List String → List Value → Run Unit
  | parameter :: parameters, v :: args => do
    scope.define parameter .parameter v
    bindPositional scope parameters args
  | _, _ => return

/-- Defines further parameters by name. -/
def bindKeywords (f : Function) (scope : Scope) : List (String × Value) → Run Unit
  | [] => return
  | (keyword, v) :: rest => do
    if !f.definition.parameters.contains keyword then
      Run.fail (.unexpectedKeyword f.definition.name keyword)
    else if ← Run.read (scope.declaresLocally keyword) then
      Run.fail (.duplicateArgument f.definition.name keyword)
    else
      scope.define keyword .parameter v
      bindKeywords f scope rest

/-- The scope of a call. A parameter that is still missing in the end is a fault. -/
def bindArguments (f : Function) (args : List Value) (keywords : List (String × Value)) :
    Run Scope := do
  let given := args.length + keywords.length
  if f.definition.parameters.length < args.length then Run.fail (f.arityFault given)
  else
    let scope ← f.closure.child
    bindPositional scope f.definition.parameters args
    bindKeywords f scope keywords
    if ← Run.read fun s => f.definition.parameters.all (scope.declaresLocally · s) then
      return scope
    else Run.fail (f.arityFault given)

end Function

end Offside
