import Offside.Evaluation

/-!
# Running programs

A machine keeps its store and its global names from one program to the next, also when a program
fails. It starts with built-in functions as its only names.
-/

namespace Offside

/-! ## Statements at the top level -/

/-- Nothing at the top level takes a `return`, a `break` or a `continue`. -/
def Flow.atTopLevel : Flow → Except Fault Unit
  | normal => .ok ()
  | returning _ => .error .returnOutsideFunction
  | breaking => .error .breakOutsideLoop
  | continuing => .error .continueOutsideLoop

def Stmt.execTopLevel (fuel : Nat) (globals : Scope) (s : Stmt) : Run Unit := do
  let flow ← s.exec fuel globals
  Run.ofExcept flow.atTopLevel

/-! ## Programs -/

/-- Why a program stops before its end. -/
inductive ProgramError where
  | assertionFailed (test : Expr)
  /-- Any other fault, with the statement of the top level that was being executed. -/
  | fault (e : Fault) (statement : Stmt)

namespace ProgramError

def ofFault (e : Fault) (statement : Stmt) : ProgramError :=
  match e with
  | .assertionFailed test => assertionFailed test
  | e => fault e statement

def cause : ProgramError → Fault
  | assertionFailed test => .assertionFailed test
  | fault e _ => e

def message : ProgramError → String
  | assertionFailed test => Fault.text (.assertionFailed test)
  | fault e statement => e.text ++ "\nwhile executing:\n" ++ statement.text

end ProgramError

/-- How a program ends. -/
inductive Ending where
  | finished (store : Store)
  | stopped (why : ProgramError) (store : Store)
  | outOfFuel

/-- Executes a program statement by statement, up to the first one that fails. -/
def Program.run (fuel : Nat) (globals : Scope) : Program → Store → Ending
  | [], store => .finished store
  | s :: rest, store =>
    match s.execTopLevel fuel globals store with
    | .done () store => Program.run fuel globals rest store
    | .failed e store => .stopped (.ofFault e s) store
    | .outOfFuel => .outOfFuel

/-! ## Machines -/

structure Machine where
  store : Store
  globals : Scope

namespace Machine

/-- The built-in functions by name. Of two with one name the first counts. -/
def builtins (actions : List Action) : Frame :=
  actions.zipIdx.foldl (fun frame (action, i) =>
    if frame.declares action.name then frame
    else (action.name, ⟨.builtin, some (.builtin ⟨i, action⟩)⟩) :: frame) []

/-- The built-in functions that a program can count on. -/
def standard : List Action := [.print, .len, .range]

/-- A machine with some built-in functions and room for so many bytes of output. -/
def new (actions : List Action) (room : Option Nat) : Machine where
  store :=
    { frames := #[builtins actions]
      lists := #[]
      dictionaries := #[]
      identities := actions.length
      output := ⟨"", room⟩ }
  globals := ⟨⟨0⟩, []⟩

/-- The value of a global name. -/
def get (m : Machine) (name : String) : Except Fault Value := m.globals.get name m.store

end Machine

/-- Fuel for longer than anyone waits. -/
def ampleFuel : Nat := 2 ^ 60

end Offside
