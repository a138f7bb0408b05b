import Mathlib.Data.List.Dedup
import Offside.Grammar.Statement
import Offside.Proofs.Bindings.Arguments
import Offside.Proofs.Store.Machines
import Offside.Token.Scan

/-!
# How many arguments a call has when its body is executed

A call whose body is executed has as many arguments as the parameters have names. If no name is
repeated in the list of parameters, it has an argument for each entry of the list. If one is
repeated, it has fewer.

This is said of whole runs by guards, which may do anything at all in place of the body. A guard
that leaves calls with the right number of arguments alone changes no run.
-/

namespace Offside

open Run

/-! ## One call -/

namespace Function

variable {f : Function} {args : List Value} {keywords : List (String × Value)} {scope : Scope}
  {s t : Store}

/-- The arguments are as many as the different names of the parameters. -/
def KeepsArity (f : Function) (args : List Value) (keywords : List (String × Value)) : Prop :=
  args.length + keywords.length = f.definition.parameters.dedup.length

instance : Decidable (f.KeepsArity args keywords) := inferInstanceAs (Decidable (_ = _))

/-- The names of a call are the names of the parameters in some order. -/
theorem Complete.keepsArity (h : f.Complete args keywords) : f.KeepsArity args keywords := by
  have hperm : (f.givenNames args keywords).Perm f.definition.parameters.dedup :=
    (List.perm_ext_iff_of_nodup h.nodup (List.nodup_dedup _)).mpr fun n =>
      (h.covers n).trans List.mem_dedup.symm
  have hlength := hperm.length_eq
  rw [length_givenNames h.fits, givenValues, List.length_append, List.length_map] at hlength
  exact hlength

theorem keepsArity_of_done (h : f.bindArguments args keywords s = .done scope t) :
    f.KeepsArity args keywords :=
  (bindArguments_eq_done.mp h).1.keepsArity

/-- What keeps the arity has one argument for each parameter, unless a parameter is repeated. -/
theorem KeepsArity.length_eq_iff (h : f.KeepsArity args keywords) :
    args.length + keywords.length = f.definition.parameters.length ↔
      f.definition.parameters.Nodup := by
  unfold KeepsArity at h
  rw [h, ← List.dedup_eq_self]
  exact (List.dedup_sublist _).length_eq

end Function

/-! ## Guards -/

/-- What a call does in place of the body of the function, if anything. -/
abbrev CallGuard : Type := Function → List Value → List (String × Value) → Option (Run Value)

/-- The guard leaves calls alone that have as many arguments as the parameters have names. -/
def CallGuard.SparesArity (guard : CallGuard) : Prop :=
  ∀ f args keywords, f.KeepsArity args keywords → guard f args keywords = none

variable (guard : CallGuard)

/-- A call that asks the guard when it has bound the arguments. -/
def Function.applyGuarded (exec : Scope → Stmt → Run Flow) (f : Function) (args : List Value)
    (keywords : List (String × Value)) : Run Value := do
  let scope ← f.bindArguments args keywords
  match guard f args keywords with
  | some instead => instead
  | none =>
    let flow ← Stmt.execAll (exec scope) f.definition.body
    Run.ofExcept flow.result

namespace Expr

def evalCallGuarded (eval : Expr → Run Value) (exec : Scope → Stmt → Run Flow) (callee : Value)
    (args : List Expr) (keywords : List (String × Expr)) : Run Value :=
  match callee with
  | .function f => do
    let args ← evalAll eval args
    let keywords ← evalKeywords eval keywords
    f.applyGuarded guard exec args keywords
  | callee => evalCall eval exec callee args keywords

/-- One level of evaluation, in which calls of functions are guarded. -/
def evalStepGuarded (eval : Scope → Expr → Run Value) (exec : Scope → Stmt → Run Flow)
    (scope : Scope) (e : Expr) : Run Value :=
  match e with
  | .call callee args keywords => do
    evalCallGuarded guard (eval scope) exec (← eval scope callee) args keywords
  | e => e.evalStep eval exec scope

end Expr

mutual

def Expr.evalGuarded : Nat → Scope → Expr → Run Value
  | 0, _, _ => Run.outOfFuel
  | fuel + 1, scope, e =>
    e.evalStepGuarded guard (Expr.evalGuarded fuel) (Stmt.execGuarded fuel) scope

def Stmt.execGuarded : Nat → Scope → Stmt → Run Flow
  | 0, _, _ => Run.outOfFuel
  | fuel + 1, scope, s => s.execStep fuel (Expr.evalGuarded fuel) (Stmt.execGuarded fuel) scope

end

/-- Executes a program with every call guarded. -/
def Program.runGuarded (fuel : Nat) (globals : Scope) : Program → Store → Ending
  | [], store => .finished store
  | s :: rest, store =>
    match (do Run.ofExcept (← s.execGuarded guard fuel globals).atTopLevel : Run Unit) store with
    | .done () store => Program.runGuarded fuel globals rest store
    | .failed e store => .stopped (.ofFault e s) store
    | .outOfFuel => .outOfFuel

/-! ## Whole runs -/

section Spared

variable {guard} (hguard : guard.SparesArity)
include hguard

theorem Function.applyGuarded_eq (exec : Scope → Stmt → Run Flow) (f : Function)
    (args : List Value) (keywords : List (String × Value)) :
    f.applyGuarded guard exec args keywords = f.apply exec args keywords := by
  funext s
  refine bind_congr_done rfl fun scope t hdone => ?_
  rw [hguard f args keywords (keepsArity_of_done hdone)]
  rfl

theorem Expr.evalCallGuarded_eq (eval : Expr → Run Value) (exec : Scope → Stmt → Run Flow)
    (callee : Value) (args : List Expr) (keywords : List (String × Expr)) :
    evalCallGuarded guard eval exec callee args keywords =
      evalCall eval exec callee args keywords := by
  cases callee with
  | function f =>
    unfold evalCallGuarded
    simp only [Function.applyGuarded_eq hguard]
    rfl
  | _ => rfl

theorem Expr.evalStepGuarded_eq (eval : Scope → Expr → Run Value) (exec : Scope → Stmt → Run Flow)
    (scope : Scope) (e : Expr) :
    e.evalStepGuarded guard eval exec scope = e.evalStep eval exec scope := by
  cases e with
  | call callee args keywords =>
    unfold evalStepGuarded
    simp only [evalCallGuarded_eq hguard]
    rfl
  | _ => rfl

/-- No call at any level is one in which the guard steps in. -/
theorem guarded_eq (fuel : Nat) :
    Expr.evalGuarded guard fuel = Expr.eval fuel ∧
      Stmt.execGuarded guard fuel = Stmt.exec fuel := by
  induction fuel with
  | zero => exact ⟨rfl, rfl⟩
  | succ fuel ih =>
    constructor
    · funext scope e
      rw [Expr.evalGuarded, ih.1, ih.2, Expr.evalStepGuarded_eq hguard]
      rfl
    · funext scope s
      rw [Stmt.execGuarded, ih.1, ih.2]
      rfl

theorem Program.runGuarded_eq (fuel : Nat) (globals : Scope) (p : Program) (s : Store) :
    p.runGuarded guard fuel globals s = p.run fuel globals s := by
  induction p generalizing s with
  | nil => rfl
  | cons st rest ih =>
    unfold Program.runGuarded Program.run Stmt.execTopLevel
    rw [(guarded_eq hguard fuel).2]
    cases (st.exec fuel globals >>= fun flow => Run.ofExcept flow.atTopLevel) s with
    | done _ s' => exact ih s'
    | _ => rfl

end Spared

/-- No run of a program ever executes the body of a function with another number of arguments than
the parameters have names. That is the number of the parameters exactly if no name is repeated. -/
theorem Program.bodies_keepArity (guard : CallGuard) (hguard : guard.SparesArity) (fuel : Nat)
    (globals : Scope) (p : Program) (store : Store) :
    p.runGuarded guard fuel globals store = p.run fuel globals store ∧
    ∀ (f : Function) (args : List Value) (keywords : List (String × Value)) (scope : Scope)
      (s t : Store), f.bindArguments args keywords s = .done scope t →
      (args.length + keywords.length = f.definition.parameters.length ↔
        f.definition.parameters.Nodup) :=
  ⟨Program.runGuarded_eq hguard fuel globals p store,
    fun _ _ _ _ _ _ h => (Function.keepsArity_of_done h).length_eq_iff⟩

/-- Refuses calls by the number of their arguments and the number of names. -/
def namesGuard : CallGuard := fun f args keywords =>
  if f.KeepsArity args keywords then none
  else some (Run.fail (f.arityFault (args.length + keywords.length)))

/-- A function of two parameters is called with one argument in order and one by name. -/
def pairProgram : Program :=
  [.functionDef ⟨"f", ["a", "b"], [.returnStmt (some (.name "b"))]⟩,
    .expression (.call (.name "f") [.integer 1] [("b", .integer 2)])]

theorem sparesArity_namesGuard : namesGuard.SparesArity := fun _ _ _ h => if_pos h

theorem Program.bodies_keepArity_pair :
    pairProgram.runGuarded namesGuard 5 (Machine.new [] none).globals (Machine.new [] none).store =
      pairProgram.run 5 (Machine.new [] none).globals (Machine.new [] none).store ∧
    (1 + 1 = ["a", "b"].length ↔ ["a", "b"].Nodup) := by
  obtain ⟨hrun, hbound⟩ := Program.bodies_keepArity namesGuard sparesArity_namesGuard 5
    (Machine.new [] none).globals pairProgram (Machine.new [] none).store
  refine ⟨hrun, ?_⟩
  exact hbound ⟨0, ⟨"f", ["a", "b"], []⟩, ⟨⟨0⟩, []⟩⟩ [.null] [("b", .null)] _
    (Machine.new [] none).store _ rfl

/-! ### A repeated parameter -/

/-- A function with a repeated parameter, and a call with a single argument. -/
def repeatedText : String := "fun f(a, a):\n    print(a)\nf(a=5)\n"

def repeatedTokens : List Token :=
  [⟨.funWord, .none, "fun", ⟨1, 1⟩⟩, ⟨.whitespace, .none, " ", ⟨1, 4⟩⟩,
    ⟨.name, .name "f", "f", ⟨1, 5⟩⟩, ⟨.openParen, .none, "(", ⟨1, 6⟩⟩,
    ⟨.name, .name "a", "a", ⟨1, 7⟩⟩, ⟨.comma, .none, ",", ⟨1, 8⟩⟩,
    ⟨.whitespace, .none, " ", ⟨1, 9⟩⟩, ⟨.name, .name "a", "a", ⟨1, 10⟩⟩,
    ⟨.closeParen, .none, ")", ⟨1, 11⟩⟩, ⟨.colon, .none, ":", ⟨1, 12⟩⟩,
    ⟨.newline, .none, "\n", ⟨1, 13⟩⟩, ⟨.indent, .none, "", ⟨2, 1⟩⟩,
    ⟨.whitespace, .none, "    ", ⟨2, 1⟩⟩, ⟨.name, .name "print", "print", ⟨2, 5⟩⟩,
    ⟨.openParen, .none, "(", ⟨2, 10⟩⟩, ⟨.name, .name "a", "a", ⟨2, 11⟩⟩,
    ⟨.closeParen, .none, ")", ⟨2, 12⟩⟩, ⟨.newline, .none, "\n", ⟨2, 13⟩⟩,
    ⟨.dedent, .none, "", ⟨3, 1⟩⟩, ⟨.name, .name "f", "f", ⟨3, 1⟩⟩,
    ⟨.openParen, .none, "(", ⟨3, 2⟩⟩, ⟨.name, .name "a", "a", ⟨3, 3⟩⟩,
    ⟨.assign, .none, "=", ⟨3, 4⟩⟩, ⟨.int, .int 5, "5", ⟨3, 5⟩⟩,
    ⟨.closeParen, .none, ")", ⟨3, 6⟩⟩, ⟨.newline, .none, "\n", ⟨3, 7⟩⟩,
    ⟨.newline, .none, "", ⟨4, 1⟩⟩, ⟨.endOfFile, .none, "", ⟨4, 1⟩⟩]

def repeatedParameter : Program :=
  [.functionDef ⟨"f", ["a", "a"], [.expression (.call (.name "print") [.name "a"] [])]⟩,
    .expression (.call (.name "f") [] [("a", .integer 5)])]

/-- Refuses calls by the number of their arguments and the number of parameters. -/
def parametersGuard : CallGuard := fun f args keywords =>
  if args.length + keywords.length = f.definition.parameters.length then none
  else some (Run.fail (f.arityFault (args.length + keywords.length)))

/-- The call executes the body, although it has fewer arguments than the list has entries. A guard
that counts the entries refuses it. -/
theorem Program.run_repeatedParameter :
    tokens repeatedText = .ok repeatedTokens ∧
      Program.ofTokens repeatedTokens = .ok repeatedParameter ∧
      (∃ s, repeatedParameter.run 5 (Machine.new Machine.standard none).globals
        (Machine.new Machine.standard none).store = .finished s ∧ s.output.text = "5\n") ∧
      ∃ why s, repeatedParameter.runGuarded parametersGuard 5
        (Machine.new Machine.standard none).globals (Machine.new Machine.standard none).store =
          .stopped why s ∧ why.cause = .invalidFunctionCall "f" 1 2 ∧ s.output.text = "" := by
  refine ⟨by decide +kernel, rfl, ⟨_, rfl, ?_⟩, _, _, rfl, rfl, ?_⟩
  · decide +kernel
  · decide +kernel

end Offside
