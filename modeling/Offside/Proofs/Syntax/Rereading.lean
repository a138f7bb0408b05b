import Offside.Proofs.Syntax.RoundTrip
import Offside.Proofs.Token.Values

/-!
# Programs that are read are printable

What is derived from printable terminals is a printable tree. So a program that was read from a text
is read again from its own source form, unless one of its float literals is infinite.
-/

namespace Offside

open Grammar
open Grammar.Terminal (word)

/-! ## Trees of what follows an operand -/

variable {e : Expr}

theorem Expr.Printable.leftGroup {others : List (Operator × Expr)} (h : e.Printable)
    (hothers : ∀ o ∈ others, o.1.isComparison = false ∧ o.2.Printable) :
    (Grammar.leftGroup e others).Printable := by
  unfold Grammar.leftGroup
  induction others generalizing e with
  | nil => exact h
  | cons o others ih =>
    obtain ⟨⟨hop, ho⟩, hrest⟩ := List.forall_mem_cons.mp hothers
    exact ih (.binary h hop ho) hrest

theorem Expr.Printable.compared {links : List (Operator × Expr)} (h : e.Printable)
    (hlinks : ∀ l ∈ links, l.1.isComparison = true ∧ l.2.Printable) :
    (Grammar.compared e links).Printable := by
  unfold Grammar.compared
  split
  · exact h
  · rename_i hne
    refine .compare h ?_ ?_ ?_ ?_
    · simpa using hne
    · exact List.forall_mem_map.mpr fun l hl => (hlinks l hl).1
    · rw [List.length_map, List.length_map]
    · exact List.forall_mem_map.mpr fun l hl => (hlinks l hl).2

/-- The suffix makes a printable tree of a printable one. -/
def Grammar.Suffix.Printable (s : Suffix) : Prop :=
  ∀ target : Expr, target.Printable → (s.apply target).Printable

theorem Expr.Printable.applied {suffixes : List Suffix} (h : e.Printable)
    (hsuffixes : ∀ s ∈ suffixes, s.Printable) : (suffixes.foldl Suffix.apply e).Printable := by
  induction suffixes generalizing e with
  | nil => exact h
  | cons s suffixes ih =>
    obtain ⟨hs, hrest⟩ := List.forall_mem_cons.mp hsuffixes
    exact ih (hs e h) hrest

/-! ## Printable phrases -/

/-- All of a definition is printable. -/
def FunctionDef.Printable (f : FunctionDef) : Prop :=
  f.PrintableHead ∧ ∀ s ∈ f.body, s.Printable

/-- What a phrase stands for is printable. -/
def Grammar.Phrase.IsPrintable : Phrase → Prop
  | .expression e | .additive e | .multiplicative e => e.Printable
  | .unary e | .postfixed e | .primary e => e.Printable
  | .comparisonLink link => link.1.isComparison = true ∧ link.2.Printable
  | .sumLink link | .productLink link => link.1.isComparison = false ∧ link.2.Printable
  | .suffix s => s.Printable
  | .entry e => e.1.Printable ∧ e.2.Printable
  | .argument (.positional value) => value.Printable
  | .argument (.keyword n value) => IsName n ∧ value.Printable
  | .parameter n => IsName n
  | .functionDefinition f => f.Printable
  | .members ms => ∀ f ∈ ms.filterMap id, f.Printable
  | .elseIf branch =>
    branch.test.Printable ∧ branch.body ≠ [] ∧ ∀ s ∈ branch.body, s.Printable
  | .otherwise body => ∀ b ∈ body, b ≠ [] ∧ ∀ s ∈ b, s.Printable
  | .headedBlock body | .block body => body ≠ [] ∧ ∀ s ∈ body, s.Printable
  | .statement statements | .items statements => ∀ s ∈ statements, s.Printable
  | .program p => p.Printable
  | .star _ | .separated _ => True

/-- The same for rows of phrases. -/
def Grammar.Phrase.Printable : Phrase → Prop
  | .star phrases | .separated phrases => ∀ p ∈ phrases, p.IsPrintable
  | p => p.IsPrintable

theorem Grammar.Phrase.Printable.isPrintable {p : Phrase} (h : p.Printable) : p.IsPrintable := by
  cases p with
  | star | separated => trivial
  | _ => exact h

theorem Grammar.Phrase.printable_statement {s : Stmt} (h : s.Printable) :
    (Phrase.statement [s]).Printable := List.forall_mem_singleton.mpr h

theorem Grammar.Phrase.printable_row {α : Type} (f : α → Phrase) {as : List α}
    (h : ∀ p ∈ as.map f, p.IsPrintable) : ∀ a ∈ as, (f a).IsPrintable :=
  List.forall_mem_map.mp h

/-- The terminals have values that can be written again. -/
def PrintableTerminals (u : List Terminal) : Prop := ∀ a ∈ u, a.value.Printable

@[simp] theorem printableTerminals_cons {a : Terminal} {u : List Terminal} :
    PrintableTerminals (a :: u) ↔ a.value.Printable ∧ PrintableTerminals u := List.forall_mem_cons

@[simp] theorem printableTerminals_append {u v : List Terminal} :
    PrintableTerminals (u ++ v) ↔ PrintableTerminals u ∧ PrintableTerminals v :=
  List.forall_mem_append

theorem PrintableTerminals.between {a b : Terminal} {u : List Terminal}
    (h : PrintableTerminals (a :: u ++ [b])) : PrintableTerminals u := by
  rw [List.cons_append, printableTerminals_cons, printableTerminals_append] at h
  exact h.2.1

theorem isName_binding {n : String} {isMutable : Bool}
    (h : PrintableTerminals (bindingTerminals n isMutable)) : IsName n := by
  cases isMutable with
  | false => exact h _ (List.mem_cons_of_mem _ List.mem_cons_self)
  | true => exact h _ (List.mem_cons_of_mem _ (List.mem_cons_of_mem _ List.mem_cons_self))

theorem printable_loop {binder : LoopVariable} (h : PrintableTerminals (loopTerminals binder)) :
    binder.Printable := by
  cases binder with
  | name n => exact h _ List.mem_cons_self
  | declared n isMutable => exact isName_binding h

/-- Expressions and what they are made of. -/
theorem derives_printable_inline {p : Phrase} {u : List Terminal} (h : Derives p u)
    (hp : p.StaysInLine) (hu : PrintableTerminals u) : p.Printable := by
  have hrow {α : Type} {f : α → Phrase} (as : List α) (hf : ∀ a, (f a).isInline) :
      ∀ q ∈ as.map f, q.isInline := List.forall_mem_map.mpr fun a _ => hf a
  induction h with
  | starNil | separatedNil => exact List.forall_mem_nil _
  | starCons _ _ ih ihs =>
    rw [printableTerminals_append] at hu
    obtain ⟨hfirst, hrest⟩ := List.forall_mem_cons.mp hp
    exact List.forall_mem_cons.mpr ⟨(ih hfirst.staysInLine hu.1).isPrintable, ihs hrest hu.2⟩
  | separatedOne _ ih =>
    obtain ⟨hfirst, -⟩ := List.forall_mem_cons.mp hp
    exact List.forall_mem_singleton.mpr (ih hfirst.staysInLine hu).isPrintable
  | separatedCons _ _ ih ihs =>
    rw [printableTerminals_append, printableTerminals_cons] at hu
    obtain ⟨hfirst, hrest⟩ := List.forall_mem_cons.mp hp
    exact List.forall_mem_cons.mpr ⟨(ih hfirst.staysInLine hu.1).isPrintable, ihs hrest hu.2.2⟩
  | nameExpression => exact Expr.Printable.name (hu _ List.mem_cons_self)
  | integer => exact Expr.Printable.integer (hu _ List.mem_cons_self)
  | float => exact Expr.Printable.float (hu _ List.mem_cons_self)
  | string => exact Expr.Printable.string (hu _ List.mem_cons_self)
  | true | false => exact Expr.Printable.boolean
  | null => exact Expr.Printable.null
  | list _ ih =>
    have hitems := ih (hrow _ fun _ => trivial) hu.between
    exact Expr.Printable.list (Phrase.printable_row .expression hitems)
  | dictionary _ ih =>
    have hentries := Phrase.printable_row .entry (ih (hrow _ fun _ => trivial) hu.between)
    exact Expr.Printable.dictionary (fun e he => (hentries e he).1) fun e he => (hentries e he).2
  | entry _ _ ih ih' =>
    rw [printableTerminals_append, printableTerminals_cons] at hu
    exact ⟨ih trivial hu.1, ih' trivial hu.2.2⟩
  | parenthesized _ ih => exact ih trivial hu.between
  | positional _ ih => exact ih trivial hu
  | keyword _ ih =>
    rw [printableTerminals_cons, printableTerminals_cons] at hu
    exact ⟨hu.1, ih trivial hu.2.2⟩
  | call _ ih =>
    have hall := ih (List.forall_mem_append.mpr
      ⟨hrow _ fun _ => trivial, hrow _ fun _ => trivial⟩) hu.between
    obtain ⟨hargs, hkeywords⟩ := List.forall_mem_append.mp hall
    have hargs := Phrase.printable_row (fun e => .argument (.positional e)) hargs
    have hkeywords := Phrase.printable_row
      (fun k : String × Expr => .argument (.keyword k.1 k.2)) hkeywords
    intro target htarget
    exact .call htarget hargs (fun k hk => (hkeywords k hk).1) fun k hk => (hkeywords k hk).2
  | member n =>
    rw [printableTerminals_cons, printableTerminals_cons] at hu
    exact fun target htarget => .member htarget hu.2.1
  | index _ ih => exact fun target htarget => .index htarget (ih trivial hu.between)
  | postfixed _ _ ih ihs =>
    rw [printableTerminals_append] at hu
    have hsuffixes := ihs (hrow _ fun _ => trivial) hu.2
    exact Expr.Printable.applied (ih trivial hu.1) (Phrase.printable_row .suffix hsuffixes)
  | not _ ih => exact Expr.Printable.not (ih trivial (printableTerminals_cons.mp hu).2)
  | negative _ ih => exact Expr.Printable.negative (ih trivial (printableTerminals_cons.mp hu).2)
  | unsigned _ ih => exact ih trivial hu
  | productLink hop _ ih | sumLink hop _ ih =>
    refine ⟨?_, ih trivial (printableTerminals_cons.mp hu).2⟩
    rcases hop with rfl | rfl <;> rfl
  | comparisonLink hop _ ih => exact ⟨hop, ih trivial (printableTerminals_cons.mp hu).2⟩
  | multiplicative _ _ ih ihs =>
    rw [printableTerminals_append] at hu
    have hlinks := ihs (hrow _ fun _ => trivial) hu.2
    exact Expr.Printable.leftGroup (ih trivial hu.1) (Phrase.printable_row .productLink hlinks)
  | additive _ _ ih ihs =>
    rw [printableTerminals_append] at hu
    have hlinks := ihs (hrow _ fun _ => trivial) hu.2
    exact Expr.Printable.leftGroup (ih trivial hu.1) (Phrase.printable_row .sumLink hlinks)
  | expression _ _ ih ihs =>
    rw [printableTerminals_append] at hu
    have hlinks := ihs (hrow _ fun _ => trivial) hu.2
    exact Expr.Printable.compared (ih trivial hu.1) (Phrase.printable_row .comparisonLink hlinks)
  | parameter n => exact hu _ List.mem_cons_self
  | _ => exact hp.elim

theorem printable_expression {u : List Terminal} (h : Derives (.expression e) u)
    (hu : PrintableTerminals u) : e.Printable := derives_printable_inline h trivial hu

/-- Blocks, statements and what they are made of. -/
theorem derives_printable {p : Phrase} {u : List Terminal} (h : Derives p u) (hp : p.TakesLines)
    (hu : PrintableTerminals u) : p.Printable := by
  induction h with
  | starNil | itemsNil | membersNil => exact List.forall_mem_nil _
  | starCons _ _ ih ihs =>
    rw [printableTerminals_append] at hu
    obtain ⟨branch, rfl, hrest⟩ := hp.uncons
    exact List.forall_mem_cons.mpr ⟨ih trivial hu.1, ihs hrest hu.2⟩
  | itemsLine _ ih | membersLine _ ih => exact ih trivial (printableTerminals_cons.mp hu).2
  | itemsStatement _ _ ih ihs =>
    rw [printableTerminals_append] at hu
    exact List.forall_mem_append.mpr ⟨ih trivial hu.1, ihs trivial hu.2⟩
  | block _ hne ih => exact ⟨hne, ih trivial hu.between⟩
  | headedBlock _ ih =>
    rw [printableTerminals_cons, printableTerminals_cons] at hu
    exact ih trivial hu.2.2
  | functionDefinition hparameters _ _ ihbody =>
    rw [List.cons_append, List.cons_append, List.cons_append, printableTerminals_cons,
      printableTerminals_cons, printableTerminals_cons, printableTerminals_append,
      printableTerminals_cons] at hu
    obtain ⟨-, hname, -, hu, -, hbody⟩ := hu
    obtain ⟨hne, hstatements⟩ := ihbody trivial hbody
    have hparameters := derives_printable_inline hparameters
      (List.forall_mem_map.mpr fun _ _ => trivial) hu
    exact ⟨⟨hname, Phrase.printable_row .parameter hparameters, hne⟩, hstatements⟩
  | membersPass _ ih =>
    rw [printableTerminals_cons, printableTerminals_cons] at hu
    exact ih trivial hu.2.2
  | membersMethod _ _ ih ihs =>
    rw [printableTerminals_append] at hu
    exact List.forall_mem_cons.mpr ⟨ih trivial hu.1, ihs trivial hu.2⟩
  | elseIf htest _ _ ihbody =>
    rw [List.cons_append, List.cons_append, printableTerminals_cons, printableTerminals_cons,
      printableTerminals_append] at hu
    exact ⟨printable_expression htest hu.2.2.1, ihbody trivial hu.2.2.2⟩
  | otherwiseNone => exact nofun
  | otherwiseSome _ ih =>
    rintro body ⟨⟩
    exact ih trivial (printableTerminals_cons.mp hu).2
  | functionStatement _ ih =>
    obtain ⟨hhead, hbody⟩ := ih trivial hu
    exact Phrase.printable_statement (.functionDef hhead hbody)
  | classStatement _ _ ih =>
    simp only [List.cons_append, printableTerminals_cons, printableTerminals_append] at hu
    have hmembers := ih trivial hu.2.2.2.2.2.1
    exact Phrase.printable_statement (.classDef hu.2.1 (fun f hf => (hmembers f hf).1)
      fun f hf => (hmembers f hf).2)
  | returnNothing => exact Phrase.printable_statement (.returnStmt nofun)
  | returnValue he =>
    refine Phrase.printable_statement (.returnStmt ?_)
    rintro e ⟨⟩
    exact printable_expression he hu.between
  | ifStatement htest _ _ _ _ ihbody ihbranches ihrest =>
    simp only [List.cons_append, printableTerminals_cons, printableTerminals_append] at hu
    obtain ⟨-, ⟨⟨hu, hbody⟩, hbranches⟩, hrest⟩ := hu
    have htest := printable_expression htest hu
    obtain ⟨hne, hbody⟩ := ihbody trivial hbody
    have hbranches := Phrase.printable_row .elseIf (ihbranches ⟨_, rfl⟩ hbranches)
    have hrest := ihrest trivial hrest
    exact Phrase.printable_statement (.ifElse htest hne hbody
      (fun b hb => ⟨(hbranches b hb).1, (hbranches b hb).2.1⟩) (fun b hb => (hbranches b hb).2.2)
      (fun b hb => (hrest b hb).1) fun b hb => (hrest b hb).2)
  | whileStatement htest _ _ ihbody =>
    rw [List.cons_append, printableTerminals_cons, printableTerminals_append] at hu
    obtain ⟨hne, hbody⟩ := ihbody trivial hu.2.2
    exact Phrase.printable_statement (.whileLoop (printable_expression htest hu.2.1) hne hbody)
  | forStatement hiterable _ _ ihbody =>
    simp only [List.cons_append, printableTerminals_cons, printableTerminals_append] at hu
    obtain ⟨-, ⟨hbinder, -, hu⟩, hbody⟩ := hu
    obtain ⟨hne, hbody⟩ := ihbody trivial hbody
    exact Phrase.printable_statement
      (.forLoop (printable_loop hbinder) (printable_expression hiterable hu) hne hbody)
  | continueStatement => exact Phrase.printable_statement .continueStmt
  | breakStatement => exact Phrase.printable_statement .breakStmt
  | assertStatement he =>
    exact Phrase.printable_statement (.assertion (printable_expression he hu.between))
  | declaration n isMutable =>
    rw [printableTerminals_append] at hu
    exact Phrase.printable_statement (.declare (isName_binding hu.1))
  | initialization he =>
    simp only [printableTerminals_cons, printableTerminals_append] at hu
    obtain ⟨⟨hbinding, -, hu⟩, -⟩ := hu
    have hname := isName_binding hbinding
    exact List.forall_mem_cons.mpr ⟨.declare hname,
      Phrase.printable_statement (.assign (.name hname) (printable_expression he hu))⟩
  | assignment htarget hvalue =>
    simp only [printableTerminals_cons, printableTerminals_append] at hu
    obtain ⟨⟨hu, -, hu'⟩, -⟩ := hu
    exact Phrase.printable_statement
      (.assign (printable_expression htarget hu) (printable_expression hvalue hu'))
  | passStatement => exact List.forall_mem_nil _
  | expressionStatement he =>
    rw [printableTerminals_append] at hu
    exact Phrase.printable_statement (.expression (printable_expression he hu.1))
  | program _ ih =>
    rw [printableTerminals_append] at hu
    exact ih trivial hu.1
  | _ => exact hp.elim

/-! ## Programs that were read -/

theorem Program.printable_of_ofTokens {source : String} {ts : List Token} {p : Program}
    (hts : tokens source = .ok ts) (hp : Program.ofTokens ts = .ok p)
    (hfinite : ∀ t ∈ ts, ¬ t.value.IsInfinite) : p.Printable := by
  refine derives_printable (derives_of_ofTokens (tokens_agree hts) hp) trivial ?_
  intro a ha
  obtain ⟨t, ht, rfl⟩ := List.mem_map.mp ha
  have ht := List.mem_of_mem_filter ht
  exact tokens_printable hts ht (hfinite t ht)

/-- A program that was read from a text is read again from its source form, unless a float literal
of the text is too large. -/
theorem Program.reread_text {source : String} {ts : List Token} {p : Program}
    (hts : tokens source = .ok ts) (hp : Program.ofTokens ts = .ok p)
    (hfinite : ∀ t ∈ ts, ¬ t.value.IsInfinite) :
    ∃ ts', tokens p.text = .ok ts' ∧ Program.ofTokens ts' = .ok p ∧ p.same p = true := by
  have hprintable := Program.printable_of_ofTokens hts hp hfinite
  obtain ⟨ts', hts', hderives⟩ := hprintable.tokens_text
  exact ⟨ts', hts', ofTokens_of_derives hderives, hprintable.same_self⟩

/-- The tokens of `y = 0.50`. -/
def halfTokens : List Token :=
  [⟨.name, .name "y", "y", ⟨1, 1⟩⟩, ⟨.whitespace, .none, " ", ⟨1, 2⟩⟩,
    ⟨.assign, .none, "=", ⟨1, 3⟩⟩, ⟨.whitespace, .none, " ", ⟨1, 4⟩⟩,
    ⟨.float, .float 0.5, "0.50", ⟨1, 5⟩⟩, ⟨.newline, .none, "\n", ⟨1, 9⟩⟩,
    ⟨.newline, .none, "", ⟨2, 1⟩⟩, ⟨.endOfFile, .none, "", ⟨2, 1⟩⟩]

theorem reread_text_half :
    tokens "y = 0.50\n" = .ok halfTokens ∧
      Program.ofTokens halfTokens = .ok [.assign (.name "y") (.float 0.5)] ∧
      (∀ t ∈ halfTokens, ¬ t.value.IsInfinite) ∧
      ∃ ts', tokens (Program.text [.assign (.name "y") (.float 0.5)]) = .ok ts' ∧
        Program.ofTokens ts' = .ok [.assign (.name "y") (.float 0.5)] ∧
        Program.same [.assign (.name "y") (.float 0.5)] [.assign (.name "y") (.float 0.5)] = true := by
  have htokens : tokens "y = 0.50\n" = .ok halfTokens := by decide +kernel
  have hhalf : Decimal.parts 0.5 ≠ .infinite false := by decide +kernel
  have hfinite : ∀ t ∈ halfTokens, ¬ t.value.IsInfinite := by
    simp [halfTokens, TokenValue.IsInfinite, hhalf]
  exact ⟨htokens, rfl, hfinite, Program.reread_text htokens rfl hfinite⟩

/-! ## Literals that are too large -/

open Decimal (IsDigits digitsValue infinityBits)

variable {whole fraction text : List Char}

/-- An expression on a line alone is a program. -/
theorem Writes.line (h : Writes text (.expression e)) :
    ∃ ts, tokens (String.ofList (lineSource 0 text)) = .ok ts ∧
      Program.ofTokens ts = .ok [.expression e] := by
  obtain ⟨hopens, u, hu, hspells⟩ := h
  have hreads := reads_line hspells hopens (Nat.zero_le (0 + 1)) []
  obtain ⟨ts, hts, hterminals⟩ := Place.tokens_of_reads hreads
  rw [List.append_nil] at hts
  refine ⟨ts, hts, ofTokens_of_derives ?_⟩
  rw [hterminals]
  have hitems := Derives.itemsStatement (.expressionStatement hu) (.itemsLine .itemsNil)
  have hprogram := Derives.program hitems
  simpa [Place.leveling] using hprogram

def infinity : Float := Float.ofBits (UInt64.ofNat infinityBits)

theorem writes_point (hwhole : IsDigits whole) (hfraction : IsDigits fraction) :
    Writes (whole ++ '.' :: fraction) (.postfixed (.float
      (Decimal.toFloat (digitsValue (whole ++ fraction)) (-(fraction.length : Int))))) := by
  obtain ⟨c, hfirst, hdigit⟩ := hwhole.head
  exact ⟨(opens_of_digits hfirst hdigit).append _, _, derives_postfixed (.float _),
    fun _ _ _ => Place.reads_point hwhole hfraction⟩

/-- A literal that is too large is read as infinity, whose source form is read as a name. -/
theorem reread_large (hwhole : IsDigits whole) (hfraction : IsDigits fraction)
    (hlarge : Decimal.nearestBits (digitsValue (whole ++ fraction)) (10 ^ fraction.length) =
      infinityBits) :
    (∃ ts, tokens (String.ofList (lineSource 0 (whole ++ '.' :: fraction))) = .ok ts ∧
      Program.ofTokens ts = .ok [.expression (.float infinity)]) ∧
    ∃ ts, tokens (Program.text [.expression (.float infinity)]) = .ok ts ∧
      Program.ofTokens ts = .ok [.expression (.name "inf")] := by
  constructor
  · have hvalue : Decimal.toFloat (digitsValue (whole ++ fraction)) (-(fraction.length : Int)) =
        infinity := by
      have hlength : 0 < fraction.length := List.length_pos_iff.mpr hfraction.1
      unfold Decimal.toFloat
      rw [if_neg (by omega), Int.neg_neg, Int.toNat_natCast, Decimal.nearest, hlarge]
      rfl
    rw [← hvalue]
    exact (writes_point hwhole hfraction).expression.line
  · have htext : Program.text [.expression (.float infinity)] =
        String.ofList (lineSource 0 (Expr.source (.name "inf"))) := by decide +kernel
    have hname : Expr.Printable (.name "inf") := .name rfl
    rw [htext]
    exact hname.writes.expression.line

/-- The line `1000….0`, with a number over 10 ^ 308. -/
def largeLine : List Char := lineSource 0 (('1' :: List.replicate 309 '0') ++ ['.', '0'])

theorem reread_text_large :
    ∃ ts ts', tokens (String.ofList largeLine) = .ok ts ∧
      Program.ofTokens ts = .ok [.expression (.float infinity)] ∧
      tokens (Program.text [.expression (.float infinity)]) = .ok ts' ∧
      Program.ofTokens ts' ≠ .ok [.expression (.float infinity)] := by
  have hwhole : IsDigits ('1' :: List.replicate 309 '0') := by
    refine ⟨List.cons_ne_nil _ _, List.forall_mem_cons.mpr ⟨rfl, fun c hc => ?_⟩⟩
    rw [List.eq_of_mem_replicate hc]
    rfl
  have hfraction : IsDigits ['0'] := ⟨List.cons_ne_nil _ _, List.forall_mem_singleton.mpr rfl⟩
  obtain ⟨⟨ts, hts, hp⟩, ts', hts', hp'⟩ := reread_large hwhole hfraction (by decide +kernel)
  refine ⟨ts, ts', hts, hp, hts', ?_⟩
  rw [hp']
  nofun

end Offside
