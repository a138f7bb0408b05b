import Offside.Store

/-!
# Scopes

Names are looked up and assigned to in the nearest frame that declares them, and declared in the
innermost frame. A snapshot of a scope is a new chain of frames with the same bindings.
-/

namespace Offside

namespace Store

/-- The nearest frame of a chain that declares a name. -/
def owner? (s : Store) (name : String) : List FrameId → Option FrameId
  | [] => none
  | id :: outer => if (s.frame id).declares name then some id else s.owner? name outer

end Store

namespace Scope

open Store

/-! ## Reading -/

def lookup (scope : Scope) (name : String) (s : Store) : Except Fault Binding :=
  match (s.owner? name scope.chain).bind fun id => (s.frame id).binding? name with
  | some b => .ok b
  | none => .error (.undeclaredVariable name)

/-- The value of a name that has one. -/
def get (scope : Scope) (name : String) (s : Store) : Except Fault Value := do
  match (← scope.lookup name s).value with
  | some v => .ok v
  | none => .error (.uninitializedVariable name)

def declaresLocally (scope : Scope) (name : String) (s : Store) : Bool :=
  (s.frame scope.innermost).declares name

/-! ## Writing -/

def declare (scope : Scope) (name : String) (role : Role) : Run Unit := do
  if ← Run.read (scope.declaresLocally name) then Run.fail (.redeclaration name)
  else Run.modify (·.modifyFrame scope.innermost fun frame => (name, ⟨role, none⟩) :: frame)

/-- Void is never assigned, and an immutable variable only once. -/
def checkAssign (name : String) (b : Binding) (v : Value) : Except Fault Unit :=
  if v.isVoid then .error (.voidAssignment name)
  else if b.role = .immutableVariable ∧ b.value.isSome then .error (.immutableReassignment name)
  else .ok ()

def assign (scope : Scope) (name : String) (v : Value) : Run Unit := fun s =>
  match s.owner? name scope.chain with
  | none => .failed (.undeclaredVariable name) s
  | some id =>
    match (s.frame id).binding? name with
    | none => .failed (.undeclaredVariable name) s
    | some b =>
      match checkAssign name b v with
      | .error e => .failed e s
      | .ok () => .done () (s.modifyFrame id fun frame => frame.set name { b with value := some v })

/-- Declares a name and assigns to it. The declaration stays where the assignment fails. -/
def define (scope : Scope) (name : String) (role : Role) (v : Value) : Run Unit := do
  scope.declare name role
  scope.assign name v

/-! ## New scopes -/

def new : Run Scope := return ⟨← newFrame [], []⟩

/-- A scope inside another one, in which nothing is declared yet. -/
def child (scope : Scope) : Run Scope := return ⟨← newFrame [], scope.chain⟩

/-- A copy of the whole chain. Names assigned in one do not change in the other, while lists and
dictionaries stay shared. -/
def snapshot (scope : Scope) : Run Scope := fun s =>
  let base := s.frames.size
  .done ⟨⟨base⟩, scope.outer.mapIdx fun i _ => ⟨base + 1 + i⟩⟩
    { s with frames := s.frames ++ scope.chain.map s.frame }

end Scope

end Offside
