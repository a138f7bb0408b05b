import Offside.Fault
import Offside.Value.Dictionary

/-!
# The store of a running program

The store holds everything that changes while a program runs: the frames that bind names, the
lists, the dictionaries and the output. It only grows, so a handle stays good.
-/

namespace Offside

/-! ## Frames -/

/-- What a name stands for, which governs whether it may be assigned to again. -/
inductive Role where
  | function | builtin | parameter | variable | immutableVariable | classDefinition
deriving DecidableEq, Repr

structure Binding where
  role : Role
  /-- Nothing until the first assignment. -/
  value : Option Value

/-- The names declared in one place. None occurs twice. -/
abbrev Frame := List (String × Binding)

namespace Frame

def binding? (frame : Frame) (name : String) : Option Binding := frame.lookup name

def declares (frame : Frame) (name : String) : Bool := (frame.binding? name).isSome

/-- Changes what a declared name stands for. -/
def set (frame : Frame) (name : String) (b : Binding) : Frame :=
  frame.map fun e => if e.1 = name then (name, b) else e

end Frame

/-! ## Output -/

structure Output where
  text : String
  /-- How many bytes the sink still takes, if there is a limit. -/
  room : Option Nat

namespace Output

def fits (o : Output) (text : String) : Bool := o.room.all (text.utf8ByteSize ≤ ·)

def append (o : Output) (text : String) : Output :=
  ⟨o.text ++ text, o.room.map (· - text.utf8ByteSize)⟩

end Output

/-! ## The store -/

structure Store where
  frames : Array Frame
  lists : Array (Array Value)
  dictionaries : Array Dictionary
  /-- How many identities have been given out. -/
  identities : Nat
  output : Output

namespace Store

def frame (s : Store) (id : FrameId) : Frame := s.frames.getD id.index []

def list (s : Store) (id : ListId) : Array Value := s.lists.getD id.index #[]

def dictionary (s : Store) (id : DictionaryId) : Dictionary :=
  s.dictionaries.getD id.index .empty

def modifyFrame (s : Store) (id : FrameId) (f : Frame → Frame) : Store :=
  { s with frames := s.frames.modify id.index f }

def modifyList (s : Store) (id : ListId) (f : Array Value → Array Value) : Store :=
  { s with lists := s.lists.modify id.index f }

def modifyDictionary (s : Store) (id : DictionaryId) (f : Dictionary → Dictionary) : Store :=
  { s with dictionaries := s.dictionaries.modify id.index f }

end Store

/-! ## Running on a store -/

/-- How a part of a run ends. Fuel runs out only where a program goes on for too long. -/
inductive Outcome (α : Type) where
  | done (value : α) (store : Store)
  | failed (fault : Fault) (store : Store)
  | outOfFuel

/-- What is done to the store before a fault stays done. -/
def Run (α : Type) : Type := Store → Outcome α

namespace Run

variable {α β : Type}

@[always_inline, inline]
protected def pure (a : α) : Run α := fun s => .done a s

@[always_inline, inline]
protected def bind (r : Run α) (f : α → Run β) : Run β := fun s =>
  match r s with
  | .done a s => f a s
  | .failed e s => .failed e s
  | .outOfFuel => .outOfFuel

@[always_inline]
instance : Monad Run where
  pure := Run.pure
  bind := Run.bind

def fail (e : Fault) : Run α := fun s => .failed e s

def outOfFuel : Run α := fun _ => .outOfFuel

@[inline]
def ofExcept (r : Except Fault α) : Run α := fun s =>
  match r with
  | .ok a => .done a s
  | .error e => .failed e s

@[inline]
def modify (f : Store → Store) : Run Unit := fun s => .done () (f s)

/-- Reads from the store. -/
@[inline]
def read (f : Store → α) : Run α := fun s => .done (f s) s

/-- Reads from the store what may not be there. -/
@[inline]
def readExcept (f : Store → Except Fault α) : Run α := fun s =>
  match f s with
  | .ok a => .done a s
  | .error e => .failed e s

end Run

namespace Store

/-! ## New things -/

def freshIdentity : Run Nat := fun s => .done s.identities { s with identities := s.identities + 1 }

def newFrame (frame : Frame) : Run FrameId := fun s =>
  .done ⟨s.frames.size⟩ { s with frames := s.frames.push frame }

def newList (items : Array Value) : Run Value := fun s =>
  .done (.list ⟨s.lists.size⟩) { s with lists := s.lists.push items }

def newDictionary (d : Dictionary) : Run Value := fun s =>
  .done (.dictionary ⟨s.dictionaries.size⟩) { s with dictionaries := s.dictionaries.push d }

/-- Writes a whole text or nothing of it. -/
def write (text : String) : Run Unit := fun s =>
  if s.output.fits text then .done () { s with output := s.output.append text }
  else .failed .sinkFull s

end Store

end Offside
