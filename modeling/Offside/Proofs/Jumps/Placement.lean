import Offside.Proofs.Logic.Soundness
import Offside.Proofs.Store.Edits
import Offside.Proofs.Store.Machines

/-!
# Jumps that stay where they are meant for

In a program whose `break`, `continue` and `return` statements stand inside loops and functions,
each of them is taken by the loop or the call around it. How a statement ends is told from where it
stands, in the program as in the body of every function that the store holds.
-/

namespace Offside

/-! ## Placement -/

mutual

/-- Every jump in the statement has something to jump out of, given what there is around it. -/
def Stmt.placed (around : Surroundings) : Stmt → Bool
  | .functionDef definition => definition.placed
  | .classDef _ methods => FunctionDef.placedAll methods
  | .ifElse _ body elseIfs otherwise =>
    Stmt.placedAll around body && ElseIf.placedAll around elseIfs &&
      Stmt.placedOption around otherwise
  | .whileLoop _ body | .forLoop _ _ body => Stmt.placedAll { around with inLoop := true } body
  | .returnStmt _ => around.inFunction
  | .breakStmt | .continueStmt => around.inLoop
  | .declare _ _ | .assign _ _ | .assertion _ | .expression _ => true
termination_by structural s => s

/-- What is around the definition of a function is not around its body. -/
def FunctionDef.placed : FunctionDef → Bool
  | ⟨_, _, body⟩ => Stmt.placedAll .functionBody body
termination_by structural f => f

def Stmt.placedAll (around : Surroundings) : List Stmt → Bool
  | [] => true
  | s :: rest => s.placed around && Stmt.placedAll around rest
termination_by structural ss => ss

def FunctionDef.placedAll : List FunctionDef → Bool
  | [] => true
  | f :: rest => f.placed && FunctionDef.placedAll rest
termination_by structural fs => fs

def ElseIf.placedAll (around : Surroundings) : List ElseIf → Bool
  | [] => true
  | ⟨_, body⟩ :: rest => Stmt.placedAll around body && ElseIf.placedAll around rest
termination_by structural bs => bs

def Stmt.placedOption (around : Surroundings) : Option (List Stmt) → Bool
  | none => true
  | some body => Stmt.placedAll around body
termination_by structural b => b

end

def Program.placed (p : Program) : Bool := Stmt.placedAll .topLevel p

/-- The jumps in the functions that a value holds are placed. -/
def Value.Placed (v : Value) : Prop := ∀ f ∈ v.functions, f.definition.placed = true

variable {around : Surroundings} {s : Stmt} {body : Block}

theorem Stmt.placedAll_iff : Stmt.placedAll around body = true ↔ ∀ s ∈ body, s.placed around = true := by
  induction body with
  | nil => exact ⟨fun _ _ h => (nomatch h), fun _ => rfl⟩
  | cons s rest ih => rw [placedAll, Bool.and_eq_true, ih, List.forall_mem_cons]

theorem FunctionDef.placed_iff {f : FunctionDef} :
    f.placed = true ↔ ∀ s ∈ f.body, s.placed .functionBody = true := by
  cases f
  exact Stmt.placedAll_iff

theorem FunctionDef.placedAll_iff {definitions : List FunctionDef} :
    FunctionDef.placedAll definitions = true ↔ ∀ f ∈ definitions, f.placed = true := by
  induction definitions with
  | nil => exact ⟨fun _ _ h => (nomatch h), fun _ => rfl⟩
  | cons f rest ih => rw [placedAll, Bool.and_eq_true, ih, List.forall_mem_cons]

theorem ElseIf.placedAll_iff {branches : List ElseIf} :
    ElseIf.placedAll around branches = true ↔
      ∀ body ∈ branches.map ElseIf.body, Stmt.placedAll around body = true := by
  induction branches with
  | nil => exact ⟨fun _ _ h => (nomatch h), fun _ => rfl⟩
  | cons branch rest ih =>
    obtain ⟨test, body⟩ := branch
    rw [placedAll, Bool.and_eq_true, ih, List.map_cons, List.forall_mem_cons]

theorem Stmt.placedOption_iff {otherwise : Option Block} :
    Stmt.placedOption around otherwise = true ↔
      ∀ body ∈ otherwise.toList, Stmt.placedAll around body = true := by
  cases otherwise with
  | none => exact ⟨fun _ _ h => (nomatch h), fun _ => rfl⟩
  | some body => simp [placedOption]

/-- The jumps in the blocks of a statement are placed among what the statement puts around them. -/
theorem Stmt.placed_of_mem_blocks {inner : Stmt} (h : s.placed around = true)
    (hbody : body ∈ s.blocks) (hinner : inner ∈ body) :
    inner.placed (around.inside s) = true := by
  suffices hall : Stmt.placedAll (around.inside s) body = true from placedAll_iff.mp hall inner hinner
  cases s with
  | ifElse test first elseIfs otherwise =>
    simp only [placed, Bool.and_eq_true, ElseIf.placedAll_iff, placedOption_iff] at h
    rcases List.mem_cons.mp hbody with rfl | hbody
    · exact h.1.1
    · exact (List.mem_append.mp hbody).elim (h.1.2 body) (h.2 body)
  | whileLoop | forLoop =>
    rw [List.mem_singleton.mp hbody]
    exact h
  | _ => cases hbody

theorem Stmt.takes_of_endsIn {flow : Flow} (h : s.placed around = true) (hflow : s.EndsIn flow) :
    around.takes flow = true := by
  cases s <;> cases flow <;> first | exact h | cases hflow

/-! ## Runs -/

/-- A logic of stores that hold placed jumps alone, where nothing fails for a jump. -/
def placement : Logic Run where
  World := Unit
  Ensures _ _ r Q := ∀ s : Store, s.Holds Value.Placed →
    r.Meets s (fun a s' => s'.Holds Value.Placed ∧ Q () a) fun e _ => e.ofJumps = false
  Extends _ _ := True
  Stores _ v := v.Placed
  Allows _ around _ s := s.placed around = true
  Opens _ _ _ _ := True
  confined := True

namespace placement

open Run

variable {α : Type} {t : Task} {w : Unit} {r : Run α} {Q : α → Prop}

/-- Edits that put placed jumps into the store keep all of them placed. -/
theorem ensures_of_edits (ids : List FrameId) {T : Store → α → Store → Prop}
    (h : ∀ s : Store, s.Holds Value.Placed → r.Edits Value.Placed ids s (T s))
    (hQ : ∀ s a s', T s a s' → Q a) : placement.Ensures t w r fun _ a => Q a := by
  intro s hs
  refine Meets.mono (h s hs) ?_ fun e _ he => he.2
  rintro a s' ⟨hedits, ha⟩
  exact ⟨hedits.holds hs, hQ s a s' ha⟩

theorem placed_of_isPlain {v : Value} (h : v.isPlain = true) : v.Placed := by
  intro f hf
  rw [Value.functions_of_isPlain h] at hf
  cases hf

theorem rules : placement.Rules where
  imp h hQ s hs := (h s hs).imp fun a _ ⟨hs', ha⟩ => ⟨hs', hQ () a trivial ha⟩
  pure h _ hs := meets_pure ⟨hs, h⟩
  bind h hf s hs := meets_bind ((h s hs).imp fun a s' ⟨hs', ha⟩ => hf () a trivial ha s' hs')
  outOfFuel _ _ := trivial
  stores_mono _ hv := hv
  stores_plain := placed_of_isPlain
  stores_instance _ hv := hv
  allows_mono _ hs := hs
  opens_mono _ _ := trivial
  operation _ h := ensures_of_edits [] (fun _ hs => h.edits hs) fun _ _ _ ha => ha
  get _ := ensures_of_edits [] (fun _ hs => Scope.get_edits hs) fun _ _ _ hv => hv
  lookup _ := ensures_of_edits [] (fun _ _ => Scope.lookup_edits) fun _ _ _ _ => trivial
  assign {_ _ scope _ _ _} _ hv :=
    ensures_of_edits scope.chain (fun _ _ => Scope.assign_edits hv (List.Subset.refl _))
      fun _ _ _ _ => trivial
  declare {_ _ scope _ _} _ :=
    ensures_of_edits scope.chain (fun _ _ => Scope.declare_edits List.mem_cons_self)
      fun _ _ _ _ => trivial
  defineFunction {_ _ scope _} hs :=
    ensures_of_edits scope.chain (fun _ hstore =>
      Stmt.defineFunction_edits hstore ⟨List.mem_cons_self, .inr (List.Subset.refl _)⟩
        fun _ => List.forall_mem_singleton.mpr hs) fun _ _ _ _ => trivial
  defineClass {_ _ scope _ _} hs :=
    ensures_of_edits scope.chain (fun _ hstore =>
      Stmt.defineClass_edits hstore ⟨List.mem_cons_self, .inr (List.Subset.refl _)⟩
        fun _ hc f hf => FunctionDef.placedAll_iff.mp hs _ (hc f hf).2) fun _ _ _ _ => trivial
  child _ _ := ensures_of_edits [] (fun _ _ => Scope.child_edits) fun _ _ _ _ => trivial
  bindLoopVariable {_ _ _ inner _ _ _ _} _ _ hitem :=
    ensures_of_edits inner.chain
      (fun _ _ => Stmt.bindLoopVariable_edits (List.Subset.refl _) hitem) fun _ _ _ _ => trivial
  enter hs _ hbody hinner := Stmt.placed_of_mem_blocks hs hbody hinner
  bindArguments _ hf hargs hkeywords :=
    ensures_of_edits [] (fun _ _ => Function.bindArguments_edits hargs hkeywords)
      fun _ _ _ _ => FunctionDef.placed_iff.mp (hf _ (List.mem_singleton_self _))
  jumps hs _ hflow := Stmt.takes_of_endsIn hs hflow
  escapes _ h := absurd trivial h
  assertionFailed _ _ := meets_fail rfl

end placement

/-! ## Whole programs -/

/-- The program stopped at a jump that nothing takes. -/
def Ending.isFaultOfJumps : Ending → Bool
  | .stopped why _ => why.cause.ofJumps
  | _ => false

/-- A statement of the top level ends normally there. -/
theorem Stmt.execTopLevel_placed {st : Stmt} (hst : st.placed .topLevel = true) (fuel : Nat)
    (globals : Scope) {s : Store} (hs : s.Holds Value.Placed) :
    (st.execTopLevel fuel globals).Meets s (fun _ s' => s'.Holds Value.Placed)
      fun e _ => e.ofJumps = false := by
  have hexec := (placement.rules.run id fuel).2 (.executing globals st) () .topLevel globals st hst
  refine Run.meets_bind ((hexec s hs).imp ?_)
  rintro flow s' ⟨hs', -, htakes⟩
  cases flow with
  | normal => exact hs'
  | _ => cases htakes trivial

/-- Where the store and the program place their jumps, every jump is taken. -/
theorem Program.run_isFaultOfJumps {p : Program} (hp : p.placed = true) (fuel : Nat)
    (globals : Scope) {s : Store} (hs : s.Holds Value.Placed) :
    (Program.run fuel globals p s).isFaultOfJumps = false := by
  induction p generalizing s with
  | nil => rfl
  | cons st rest ih =>
    unfold Program.placed Stmt.placedAll at hp
    rw [Bool.and_eq_true] at hp
    have hstep := Stmt.execTopLevel_placed hp.1 fuel globals hs
    unfold Program.run
    cases hrun : st.execTopLevel fuel globals s with
    | done u s' => exact ih hp.2 (hstep.of_done hrun)
    | failed e s' =>
      show (ProgramError.ofFault e st).cause.ofJumps = false
      rw [ProgramError.cause_ofFault]
      exact hstep.of_failed hrun
    | outOfFuel => rfl

/-- A program whose jumps are placed never fails for a jump on a new machine. -/
theorem Program.run_placed {p : Program} (hp : p.placed = true) (actions : List Action)
    (room : Option Nat) (fuel : Nat) :
    (Program.run fuel (Machine.new actions room).globals p
      (Machine.new actions room).store).isFaultOfJumps = false :=
  Program.run_isFaultOfJumps hp fuel _
    (Machine.holds_new actions room fun _ => placement.placed_of_isPlain rfl)

/-- A search that leaves two loops at once, in a function that is called from a third. -/
def search : Program :=
  [.functionDef ⟨"find", ["rows", "wanted"],
    [.forLoop (.declared "row" false) (.name "rows")
      [.forLoop (.declared "item" false) (.name "row")
        [.ifElse (.binary (.name "item") .notEqual (.name "wanted")) [.continueStmt] [] none,
          .returnStmt (some (.boolean true))]],
      .returnStmt (some (.boolean false))]⟩,
    .forLoop (.declared "i" false) (.call (.name "range") [.integer 3] [])
      [.ifElse (.call (.name "find") [.list [.list [.integer 1, .integer 2]], .name "i"] [])
        [.expression (.call (.name "print") [.name "i"] []), .breakStmt] [] none]]

theorem run_placed_search :
    (Program.run 100 (Machine.new Machine.standard none).globals search
      (Machine.new Machine.standard none).store).isFaultOfJumps = false :=
  Program.run_placed (by decide) Machine.standard none 100

end Offside
