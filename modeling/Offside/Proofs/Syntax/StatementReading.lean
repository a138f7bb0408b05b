import Offside.Proofs.Grammar.ExtraLines
import Offside.Proofs.Syntax.ExpressionReading

/-!
# Reading the source form of a statement

Lines leave blocks open, which the next line of a lower level or the end of the text closes. At the
end of the text a line end stands before that, and the innermost open block takes it.
-/

namespace Offside

open Grammar
open Grammar.Terminal (word name)
open Place (Reads inLine newLine leveling)

/-! ## Lines -/

/-- Lines of a depth are read up to a level, as terminals with the property once the blocks up to
that level are closed. -/
structure LaidUpTo (P : List Terminal → Prop) (depth : Nat) (text : List Char) (u : List Terminal)
    (level : Nat) : Prop where
  deeper : depth ≤ level
  closes : P (u ++ List.replicate (level - depth) (word .dedent))
  closesAtEnd : depth < level →
    P (u ++ word .newline :: List.replicate (level - depth) (word .dedent))
  reads : ∀ before rest, depth ≤ before + 1 →
    Reads (newLine before (text ++ rest)) (leveling before depth ++ u) (newLine level rest)

def Laid (P : List Terminal → Prop) (depth : Nat) (text : List Char) : Prop :=
  ∃ u level, LaidUpTo P depth text u level

/-- There may be no lines at all. -/
def LaidOrNone (P : List Terminal → Prop) (depth : Nat) (text : List Char) : Prop :=
  (text = [] ∧ P []) ∨ Laid P depth text

section Lines

variable {P Q R : List Terminal → Prop} {depth : Nat} {a b content head : List Char}
  {u v : List Terminal}

theorem leveling_down {level target : Nat} (h : target ≤ level) :
    leveling level target = List.replicate (level - target) (word .dedent) :=
  if_neg (Nat.not_lt.mpr h)

theorem leveling_up {level target : Nat} (h : level < target) :
    leveling level target = [word .indent] :=
  if_pos h

/-- The content of a line, up to what ends the line. -/
theorem reads_content (hspells : Spells content u) (hopens : Opens content) {before : Nat}
    (hlevel : depth ≤ before + 1) {rest : List Char} (hrest : Separates rest) :
    Reads (newLine before (List.replicate (4 * depth) ' ' ++ (content ++ rest)))
      (leveling before depth ++ u) (inLine depth [] rest) := by
  obtain ⟨c, tail, rfl, hc⟩ := hopens
  have hindentation : Reads
      (newLine before (List.replicate (4 * depth) ' ' ++ c :: (tail ++ rest)))
      (leveling before depth) (inLine depth [] (c :: (tail ++ rest))) :=
    Place.reads_indentation hlevel (Place.startsContent_of_opensLexeme hc)
  exact hindentation.trans (hspells depth [] rest hrest)

theorem reads_line (hspells : Spells content u) (hopens : Opens content) {before : Nat}
    (hlevel : depth ≤ before + 1) (rest : List Char) :
    Reads (newLine before (lineSource depth content ++ rest))
      (leveling before depth ++ (u ++ [word .newline])) (newLine depth rest) := by
  have hend : Separates ('\n' :: rest) := separates_of_head rfl (by decide) rest
  have h := (reads_content hspells hopens hlevel hend).trans Place.reads_newline
  simpa [lineSource] using h

theorem laid_line (hspells : Spells content u) (hopens : Opens content)
    (hP : P (u ++ [word .newline])) : Laid P depth (lineSource depth content) := by
  refine ⟨u ++ [word .newline], depth, Nat.le_refl depth, ?_, ?_, ?_⟩
  · rw [Nat.sub_self, List.replicate_zero, List.append_nil]
    exact hP
  · intro h
    exact absurd h (Nat.lt_irrefl depth)
  · intro before rest hlevel
    exact reads_line hspells hopens hlevel rest

/-- A line with lines one level deeper below it. -/
theorem laid_nested (hspells : Spells head u) (hopens : Opens head)
    (hbody : Laid Q (depth + 1) b) (hline : ∀ w, Q w → Q (w ++ [word .newline]))
    (hP : ∀ w, Q w → P (u ++ word .newline :: (word .indent :: w ++ [word .dedent]))) :
    Laid P depth (lineSource depth head ++ b) := by
  obtain ⟨v, level, hdeeper, hcloses, hclosesAtEnd, hreads⟩ := hbody
  have hdedents : List.replicate (level - depth) (word .dedent) =
      List.replicate (level - (depth + 1)) (word .dedent) ++ [word .dedent] := by
    rw [← List.replicate_succ']
    congr 1
    omega
  refine ⟨u ++ word .newline :: word .indent :: v, level, by omega, ?_, ?_, ?_⟩
  · rw [hdedents]
    simpa using hP _ hcloses
  · intro _
    have hend : Q (v ++ word .newline :: List.replicate (level - (depth + 1)) (word .dedent)) := by
      by_cases hlevel : depth + 1 < level
      · exact hclosesAtEnd hlevel
      · have hzero : level - (depth + 1) = 0 := by omega
        rw [hzero] at hcloses ⊢
        simpa using hline _ hcloses
    rw [hdedents]
    simpa using hP _ hend
  · intro before rest hlevel
    have hhead := reads_line hspells hopens hlevel (b ++ rest)
    have hinside := hreads depth rest (Nat.le_refl _)
    rw [leveling_up (Nat.lt_succ_self depth)] at hinside
    simpa using hhead.trans hinside

theorem Laid.mono (h : Laid P depth a) (hP : ∀ u, P u → Q u) : Laid Q depth a := by
  obtain ⟨u, level, hdeeper, hcloses, hclosesAtEnd, hreads⟩ := h
  exact ⟨u, level, hdeeper, hP _ hcloses, fun hlevel => hP _ (hclosesAtEnd hlevel), hreads⟩

theorem Laid.append (ha : Laid P depth a) (hb : LaidOrNone Q depth b)
    (hR : ∀ u v, P u → Q v → R (u ++ v)) : Laid R depth (a ++ b) := by
  rcases hb with ⟨rfl, hb⟩ | ⟨v, level', hdeeper', hcloses', hclosesAtEnd', hreads'⟩
  · rw [List.append_nil]
    refine ha.mono fun u hu => ?_
    rw [← List.append_nil u]
    exact hR u [] hu hb
  · obtain ⟨u, level, hdeeper, hcloses, -, hreads⟩ := ha
    refine ⟨u ++ List.replicate (level - depth) (word .dedent) ++ v, level', hdeeper', ?_, ?_, ?_⟩
    · simpa using hR _ _ hcloses hcloses'
    · intro hlevel
      simpa using hR _ _ hcloses (hclosesAtEnd' hlevel)
    · intro before rest hlevel
      have hfirst := hreads before (b ++ rest) hlevel
      have hsecond := hreads' level rest (Nat.le_succ_of_le hdeeper)
      rw [leveling_down hdeeper] at hsecond
      simpa using hfirst.trans hsecond

/-- Lines after one another, with a property of lists of terminals that is built up from the right. -/
theorem laid_flatMap {α : Type} {source : α → List Char} {P : α → List Terminal → Prop}
    {Q : List α → List Terminal → Prop} (hnil : Q [] [])
    (hcons : ∀ a as u v, P a u → Q as v → Q (a :: as) (u ++ v)) {as : List α}
    (h : ∀ a ∈ as, Laid (P a) depth (source a)) :
    LaidOrNone (Q as) depth (as.flatMap source) ∧
      (as ≠ [] → Laid (Q as) depth (as.flatMap source)) := by
  induction as with
  | nil => exact ⟨.inl ⟨rfl, hnil⟩, fun hne => absurd rfl hne⟩
  | cons a as ih =>
    rw [List.forall_mem_cons] at h
    have hlaid : Laid (Q (a :: as)) depth (source a ++ as.flatMap source) :=
      h.1.append (ih h.2).1 (hcons a as)
    rw [List.flatMap_cons]
    exact ⟨.inr hlaid, fun _ => hlaid⟩

end Lines

/-! ## Blocks and definitions -/

section Blocks

variable {P : List Terminal → Prop} {depth : Nat} {head : List Char} {u : List Terminal}

theorem sources_eq_flatMap (depth : Nat) (ss : List Stmt) :
    Stmt.sources depth ss = ss.flatMap (Stmt.source depth) := by
  induction ss with
  | nil => rfl
  | cons s rest ih => rw [Stmt.sources, ih, List.flatMap_cons]

theorem methodSources_eq_flatMap (depth : Nat) (fs : List FunctionDef) :
    FunctionDef.sources depth fs = fs.flatMap (FunctionDef.source depth) := by
  induction fs with
  | nil => rfl
  | cons f rest ih => rw [FunctionDef.sources, ih, List.flatMap_cons]

def ElseIf.source (depth : Nat) (b : ElseIf) : List Char :=
  lineSource depth ("else if ".toList ++ b.test.source ++ [':']) ++ Stmt.sources (depth + 1) b.body

theorem elseIfSources_eq_flatMap (depth : Nat) (bs : List ElseIf) :
    ElseIf.sources depth bs = bs.flatMap (ElseIf.source depth) := by
  induction bs with
  | nil => rfl
  | cons b rest ih =>
    obtain ⟨test, body⟩ := b
    rw [ElseIf.sources, ih, List.flatMap_cons, ElseIf.source]

/-- Statements that are not none are items. -/
theorem laid_items {body : Block} (hne : body ≠ [])
    (h : ∀ s ∈ body, Laid (Derives (.statement [s])) depth (s.source depth)) :
    Laid (Derives (.items body)) depth (Stmt.sources depth body) := by
  rw [sources_eq_flatMap]
  have hcons : ∀ (s : Stmt) (rest : Block) (u v : List Terminal), Derives (.statement [s]) u →
      Derives (.items rest) v → Derives (.items (s :: rest)) (u ++ v) :=
    fun s rest u v hs hrest => .itemsStatement hs hrest
  exact (laid_flatMap .itemsNil hcons h).2 hne

/-- A line that ends in a colon, and a block. -/
theorem laid_headed {body : Block} (hspells : Spells head u) (hopens : Opens head)
    (hne : body ≠ [])
    (h : ∀ s ∈ body, Laid (Derives (.statement [s])) (depth + 1) (s.source (depth + 1)))
    (hP : ∀ w, Derives (.headedBlock body) w → P (u ++ w)) :
    Laid P depth (lineSource depth (head ++ [':']) ++ Stmt.sources (depth + 1) body) := by
  refine laid_nested hspells.append_colon (hopens.append _) (laid_items hne h)
    (fun w => items_line) fun w hw => ?_
  rw [List.append_assoc]
  exact hP _ (.headedBlock (.block hw hne))

theorem laid_functionDefinition {f : FunctionDef} (hf : f.PrintableHead)
    (h : ∀ s ∈ f.body, Laid (Derives (.statement [s])) (depth + 1) (s.source (depth + 1))) :
    Laid (Derives (.functionDefinition f)) depth (f.source depth) := by
  obtain ⟨n, parameters, body⟩ := f
  obtain ⟨hn, hparameters, hne⟩ := hf
  have hnames : ∀ p ∈ parameters, Writes p.toList (.parameter p) := fun p hp =>
    ⟨opens_name (hparameters p hp), _, .parameter p, .name (hparameters p hp)⟩
  obtain ⟨u, hu, hspells⟩ := separated_spells (writes_map hnames)
  have hhead := Spells.keyword_blank (w := "fun") rfl
    ((Spells.name hn).append (hspells.enclosed .parens) fun rest _ => Encloses.parens.separates _)
    ((opens_name hn).append _)
  have hlaid := laid_headed (P := Derives (.functionDefinition ⟨n, parameters, body⟩)) hhead
    ⟨'f', _, rfl, rfl⟩ hne h fun w hw => by
      simpa using Derives.functionDefinition hu hw
  simpa [FunctionDef.source] using hlaid

theorem laid_elseIf {b : ElseIf} (htest : b.test.Printable) (hne : b.body ≠ [])
    (h : ∀ s ∈ b.body, Laid (Derives (.statement [s])) (depth + 1) (s.source (depth + 1))) :
    Laid (Derives (.elseIf b)) depth (b.source depth) := by
  obtain ⟨test, body⟩ := b
  obtain ⟨hopens, u, hu, hspells⟩ := htest.writes.expression
  have hif := Spells.keyword_blank (w := "if") rfl hspells hopens
  have hhead := Spells.keyword_blank (w := "else") rfl hif ⟨'i', _, rfl, rfl⟩
  exact laid_headed (P := Derives (.elseIf ⟨test, body⟩)) hhead ⟨'e', _, rfl, rfl⟩ hne h fun w hw =>
    .elseIf hu hw

theorem laid_elseIfs {bs : List ElseIf} (htests : ∀ b ∈ bs, b.test.Printable ∧ b.body ≠ [])
    (h : ∀ b ∈ bs, ∀ s ∈ b.body,
      Laid (Derives (.statement [s])) (depth + 1) (s.source (depth + 1))) :
    LaidOrNone (Derives (.star (bs.map .elseIf))) depth (ElseIf.sources depth bs) := by
  rw [elseIfSources_eq_flatMap]
  have hcons : ∀ (b : ElseIf) (rest : List ElseIf) (u v : List Terminal), Derives (.elseIf b) u →
      Derives (.star (rest.map .elseIf)) v → Derives (.star ((b :: rest).map .elseIf)) (u ++ v) :=
    fun b rest u v hb hrest => .starCons hb hrest
  exact (laid_flatMap (Q := fun bs => Derives (.star (bs.map .elseIf))) .starNil hcons
    fun b hb => laid_elseIf (htests b hb).1 (htests b hb).2 (h b hb)).1

theorem laid_otherwise {otherwise : Option Block} (hne : ∀ b ∈ otherwise, b ≠ [])
    (h : ∀ b ∈ otherwise, ∀ s ∈ b,
      Laid (Derives (.statement [s])) (depth + 1) (s.source (depth + 1))) :
    LaidOrNone (Derives (.otherwise otherwise)) depth (Stmt.elseSource depth otherwise) := by
  cases otherwise with
  | none => exact .inl ⟨rfl, .otherwiseNone⟩
  | some body =>
    have hword : Spells "else".toList [word .elseWord] := .keyword rfl
    exact .inr (laid_headed hword ⟨'e', _, rfl, rfl⟩ (hne body rfl) (h body rfl) fun w hw =>
      .otherwiseSome hw)

theorem laid_members {methods : List FunctionDef} (hheads : ∀ f ∈ methods, f.PrintableHead)
    (h : ∀ f ∈ methods, ∀ s ∈ f.body,
      Laid (Derives (.statement [s])) (depth + 1) (s.source (depth + 1)))
    (hne : methods ≠ []) :
    Laid (Derives (.members (methods.map some))) depth (FunctionDef.sources depth methods) := by
  rw [methodSources_eq_flatMap]
  have hcons : ∀ (f : FunctionDef) (rest : List FunctionDef) (u v : List Terminal),
      Derives (.functionDefinition f) u → Derives (.members (rest.map some)) v →
      Derives (.members ((f :: rest).map some)) (u ++ v) :=
    fun f rest u v hf hrest => .membersMethod hf hrest
  exact (laid_flatMap (Q := fun fs => Derives (.members (fs.map some))) .membersNil hcons
    fun f hf => laid_functionDefinition (hheads f hf) (h f hf)).2 hne

/-- The line of a class with its members below it. -/
theorem laid_class {n : String} {ms : List (Option FunctionDef)} {text : List Char}
    (hn : IsName n) (hne : ms ≠ []) (hmembers : Laid (Derives (.members ms)) (depth + 1) text) :
    Laid (Derives (.statement [.classDef n (ms.filterMap id)])) depth
      (lineSource depth ("class ".toList ++ n.toList ++ [':']) ++ text) := by
  have hhead := Spells.keyword_blank (w := "class") rfl (.name hn) (opens_name hn)
  exact laid_nested hhead.append_colon ⟨'c', _, rfl, rfl⟩ hmembers (fun w => members_line)
    fun w hw => .classStatement hw hne

/-- A class without methods is written with a `pass`. -/
theorem laid_classDef {n : String} {methods : List FunctionDef} (hn : IsName n)
    (hheads : ∀ f ∈ methods, f.PrintableHead)
    (h : ∀ f ∈ methods, ∀ s ∈ f.body,
      Laid (Derives (.statement [s])) (depth + 1 + 1) (s.source (depth + 1 + 1))) :
    Laid (Derives (.statement [.classDef n methods])) depth
      ((Stmt.classDef n methods).source depth) := by
  cases methods with
  | nil =>
    have hword : Spells "pass".toList [word .passWord] := .keyword rfl
    exact laid_class hn (List.cons_ne_nil none [])
      (laid_line hword ⟨'p', _, rfl, rfl⟩ (.membersPass .membersNil))
  | cons f rest =>
    have hmethods : ((f :: rest).map some).filterMap id = f :: rest := by simp
    have hlaid := laid_class hn (List.cons_ne_nil _ _)
      (laid_members hheads h (List.cons_ne_nil _ _))
    rw [← List.map_cons, hmethods] at hlaid
    exact hlaid

end Blocks

/-! ## Statements -/

theorem declaration_spells {n : String} (hn : IsName n) (isMutable : Bool) :
    Spells (declarationSource n isMutable) (bindingTerminals n isMutable) := by
  cases isMutable with
  | false => exact .keyword_blank (w := "var") rfl (.name hn) (opens_name hn)
  | true =>
    exact .keyword_blank (w := "var") rfl (.keyword_blank (w := "mut") rfl (.name hn) (opens_name hn))
      ⟨'m', _, rfl, rfl⟩

theorem opens_declarationSource (n : String) (isMutable : Bool) :
    Opens (declarationSource n isMutable) := by
  cases isMutable <;> exact ⟨'v', _, rfl, rfl⟩

theorem loopVariable_spells {binder : LoopVariable} (h : binder.Printable) :
    Opens binder.source ∧ Spells binder.source (loopTerminals binder) := by
  cases binder with
  | name n => exact ⟨opens_name h, .name h⟩
  | declared n isMutable => exact ⟨opens_declarationSource n isMutable, declaration_spells h isMutable⟩

/-- The source form of a printable statement is read as that statement, at any depth. -/
theorem Stmt.Printable.laid {s : Stmt} (h : s.Printable) (depth : Nat) :
    Laid (Derives (.statement [s])) depth (s.source depth) := by
  induction h generalizing depth with
  | functionDef hf _ ih =>
    exact (laid_functionDefinition hf fun s hs => ih s hs _).mono fun _ => .functionStatement
  | classDef hn hheads _ ih => exact laid_classDef hn hheads fun f hf s hs => ih f hf s hs _
  | declare hn =>
    exact laid_line (declaration_spells hn _) (opens_declarationSource _ _) (.declaration _ _)
  | assign htarget hvalue =>
    obtain ⟨hopens, u, hu, hspells⟩ := htarget.writes.expression
    obtain ⟨hopens', v, hv, hspells'⟩ := hvalue.writes.expression
    have htext := hspells.append (Spells.assign_blank hspells' hopens') fun rest _ =>
      separates_of_head rfl (by decide) _
    have hlaid : Laid _ depth _ := laid_line htext (hopens.append _) (Derives.assignment hu hv)
    simpa [Stmt.source] using hlaid
  | ifElse htest hne _ helseIfs _ hotherwise _ ihbody ihelseIfs ihotherwise =>
    obtain ⟨hopens, u, hu, hspells⟩ := htest.writes.expression
    have hhead := Spells.keyword_blank (w := "if") rfl hspells hopens
    have hblock : Laid (fun v => ∃ w, Derives (.headedBlock _) w ∧ v = word .ifWord :: u ++ w)
        depth _ :=
      laid_headed hhead ⟨'i', _, rfl, rfl⟩ hne (fun s hs => ihbody s hs _) fun w hw => ⟨w, hw, rfl⟩
    have hbranches : Laid (fun v => ∃ w x, Derives (.headedBlock _) w ∧
        Derives (.star _) x ∧ v = word .ifWord :: u ++ w ++ x) depth _ :=
      hblock.append (laid_elseIfs helseIfs fun b hb s hs => ihelseIfs b hb s hs _) (by
        rintro _ x ⟨w, hw, rfl⟩ hx
        exact ⟨w, x, hw, hx, rfl⟩)
    refine hbranches.append
      (laid_otherwise hotherwise fun b hb s hs => ihotherwise b hb s hs _) ?_
    rintro _ y ⟨w, x, hw, hx, rfl⟩ hy
    exact .ifStatement hu hw hx hy
  | whileLoop htest hne _ ih =>
    obtain ⟨hopens, u, hu, hspells⟩ := htest.writes.expression
    have hhead := Spells.keyword_blank (w := "while") rfl hspells hopens
    exact laid_headed hhead ⟨'w', _, rfl, rfl⟩ hne (fun s hs => ih s hs _) fun w hw =>
      .whileStatement hu hw
  | forLoop hbinder hiterable hne _ ih =>
    obtain ⟨hopens, hbinding⟩ := loopVariable_spells hbinder
    obtain ⟨hopens', u, hu, hspells⟩ := hiterable.writes.expression
    have hin := Spells.keyword_blank (w := "in") rfl hspells hopens'
    have hbound := hbinding.append_blank hin ⟨'i', _, rfl, rfl⟩
    have hhead := Spells.keyword_blank (w := "for") rfl hbound (hopens.append _)
    have hlaid : Laid (Derives (.statement [.forLoop _ _ _])) depth _ :=
      laid_headed hhead ⟨'f', _, rfl, rfl⟩ hne (fun s hs => ih s hs (depth + 1)) fun w hw => by
        simpa using Derives.forStatement hu hw
    simpa [Stmt.source] using hlaid
  | @returnStmt value hvalue =>
    cases value with
    | none =>
      have hword : Spells "return".toList [word .returnWord] := .keyword rfl
      exact laid_line hword ⟨'r', _, rfl, rfl⟩ .returnNothing
    | some e =>
      obtain ⟨hopens, u, hu, hspells⟩ := (hvalue e rfl).writes.expression
      exact laid_line (.keyword_blank (w := "return") rfl hspells hopens) ⟨'r', _, rfl, rfl⟩
        (.returnValue hu)
  | breakStmt =>
    have hword : Spells "break".toList [word .breakWord] := .keyword rfl
    exact laid_line hword ⟨'b', _, rfl, rfl⟩ .breakStatement
  | continueStmt =>
    have hword : Spells "continue".toList [word .continueWord] := .keyword rfl
    exact laid_line hword ⟨'c', _, rfl, rfl⟩ .continueStatement
  | assertion htest =>
    obtain ⟨hopens, u, hu, hspells⟩ := htest.writes.expression
    exact laid_line (.keyword_blank (w := "assert") rfl hspells hopens) ⟨'a', _, rfl, rfl⟩
      (.assertStatement hu)
  | expression he =>
    obtain ⟨hopens, u, hu, hspells⟩ := he.writes.expression
    exact laid_line hspells hopens (.expressionStatement hu)

end Offside
