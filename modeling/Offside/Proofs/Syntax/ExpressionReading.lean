import Mathlib.Data.List.Forall2
import Offside.Proofs.Grammar.ExpressionCompleteness
import Offside.Proofs.Syntax.Printable

/-!
# Reading the source form of an expression

The source form of a printable expression is read as terminals that derive it. Whatever stands in
brackets is an operand, so it does not matter where in an expression it stands.
-/

namespace Offside

open Grammar
open Grammar.Terminal (word name)
open Text (isAsciiDigit isNamePart isNameStart_of_isAsciiDigit)
open Place (Reads inLine opensLexeme startsWord)

/-! ## Texts in a line -/

/-- Wherever the text stands in a line, it is read as these terminals. -/
def Spells (text : List Char) (u : List Terminal) : Prop :=
  ∀ level brackets rest, Separates rest →
    Reads (inLine level brackets (text ++ rest)) u (inLine level brackets rest)

/-- The text begins with a character that neither separates lexemes nor adds to the one before. -/
def Opens (text : List Char) : Prop := ∃ c tail, text = c :: tail ∧ opensLexeme c = true

theorem Opens.append {a : List Char} (h : Opens a) (b : List Char) : Opens (a ++ b) := by
  obtain ⟨c, tail, rfl, hc⟩ := h
  exact ⟨c, tail ++ b, rfl, hc⟩

theorem Opens.head {a : List Char} (h : Opens a) : ∀ c ∈ a.head?, opensLexeme c = true := by
  obtain ⟨c, tail, rfl, hc⟩ := h
  intro first hfirst
  obtain rfl : c = first := by simpa using hfirst
  exact hc

theorem separates_of_head {c : Char} (hname : isNamePart c = false) (hpoint : c ≠ '.')
    (rest : List Char) : Separates (c :: rest) where
  word := by
    intro first hfirst
    obtain rfl : c = first := by simpa using hfirst
    exact hname
  number := by
    intro first tail h
    exact absurd (List.cons.inj h).1 hpoint

/-- No name begins like the fraction of a number. -/
theorem separates_period {n : String} (h : IsName n) (rest : List Char) :
    Separates ('.' :: n.toList ++ rest) where
  word := by
    intro first hfirst
    obtain rfl : '.' = first := by simpa using hfirst
    rfl
  number := by
    intro c tail htail
    obtain ⟨first, others, htext, hfirst⟩ := h.head
    rw [htext] at htail
    simp only [List.cons_append, List.cons.injEq, true_and] at htail
    rw [← htail.1]
    cases hdigit : isAsciiDigit first with
    | false => rfl
    | true =>
      rw [isNameStart_of_isAsciiDigit hdigit] at hfirst
      cases hfirst

namespace Spells

variable {a b : List Char} {u v : List Terminal}

theorem nil : Spells [] [] := fun _ _ _ _ => .refl _

theorem append (ha : Spells a u) (hb : Spells b v)
    (hseparates : ∀ rest, Separates rest → Separates (b ++ rest)) : Spells (a ++ b) (u ++ v) := by
  intro level brackets rest hrest
  rw [List.append_assoc]
  exact (ha level brackets _ (hseparates rest hrest)).trans (hb level brackets rest hrest)

/-- A blank before a text is not read. -/
theorem blank (hb : Spells b v) (hopens : Opens b) : Spells (' ' :: b) v := by
  intro level brackets rest hrest
  have hfirst : ∀ first ∈ (b ++ rest).head?, Cursor.isBlank first = false := by
    intro first hfirst
    have := (hopens.append rest).head first hfirst
    simp [opensLexeme] at this
    exact this.1.1.1
  exact (Place.reads_blank hfirst).trans (hb level brackets rest hrest)

theorem append_blank (ha : Spells a u) (hb : Spells b v) (hopens : Opens b) :
    Spells (a ++ ' ' :: b) (u ++ v) :=
  ha.append (hb.blank hopens) fun rest _ => separates_of_head rfl (by decide) (b ++ rest)

/-- An operator and its right operand, with a blank before each. -/
theorem operator_blank (op : Operator) (hb : Spells b v) (hopens : Opens b) :
    Spells (' ' :: op.source ++ ' ' :: b) (word (operatorKind op) :: v) := by
  intro level brackets rest hrest
  have hfirst : ∀ first ∈ (op.source ++ ' ' :: (b ++ rest)).head?,
      Cursor.isBlank first = false := by
    cases op <;> simp [Operator.source, Operator.symbol, Cursor.isBlank]
  have hop : Reads (inLine level brackets (' ' :: (op.source ++ ' ' :: (b ++ rest))))
      [word (operatorKind op)] (inLine level brackets (' ' :: (b ++ rest))) :=
    (Place.reads_blank hfirst).trans (Place.reads_operator op)
  have h := hop.trans (hb.blank hopens level brackets rest hrest)
  simpa using h

theorem keyword {w : String} {kind : TokenKind} (h : Lexeme.keyword? w = some kind) :
    Spells w.toList [word kind] :=
  fun _ _ _ hrest => Place.reads_keyword h hrest

theorem keyword_blank {w : String} {kind : TokenKind} (h : Lexeme.keyword? w = some kind)
    (hb : Spells b v) (hopens : Opens b) : Spells (w.toList ++ ' ' :: b) (word kind :: v) :=
  (keyword h).append_blank hb hopens

/-- An equals sign between blanks. -/
theorem assign_blank (hb : Spells b v) (hopens : Opens b) :
    Spells (' ' :: '=' :: ' ' :: b) (word .assign :: v) := by
  intro level brackets rest hrest
  have hassign : Reads (inLine level brackets (' ' :: '=' :: ' ' :: (b ++ rest))) [word .assign]
      (inLine level brackets (' ' :: (b ++ rest))) :=
    (Place.reads_blank (by simp [Cursor.isBlank])).trans (Place.reads_assign (by simp))
  exact hassign.trans (hb.blank hopens level brackets rest hrest)

theorem name {n : String} (h : IsName n) : Spells n.toList [Terminal.name n] :=
  fun _ _ _ hrest => Place.reads_name h hrest

/-- A symbol that is read alike before any text. -/
theorem symbol (c : Char) (kind : TokenKind)
    (hsymbol : ∀ rest, Lexeme.symbol? (c :: rest) = some (kind, 1)) (hfirst : startsWord c = true)
    (hvalue : Lexeme.value? kind [c] = some .none)
    (hbrackets : ∀ brackets, Cursor.bracketsAfter? brackets kind = some brackets)
    (hkind : kind ≠ .whitespace) : Spells [c] [word kind] :=
  fun _ brackets rest _ =>
    Place.reads_symbol c kind (hsymbol rest) hfirst hvalue (hbrackets brackets) hkind

theorem comma : Spells [','] [word .comma] :=
  symbol ',' .comma (fun _ => rfl) rfl rfl (fun _ => rfl) nofun

theorem colon : Spells [':'] [word .colon] :=
  symbol ':' .colon (fun _ => rfl) rfl rfl (fun _ => rfl) nofun

theorem minus (hb : Spells b v) : Spells ('-' :: b) (word .minus :: v) := by
  intro level brackets rest hrest
  have hminus : Reads (inLine level brackets ('-' :: (b ++ rest))) [word .minus]
      (inLine level brackets (b ++ rest)) := Place.reads_symbol _ _ rfl rfl rfl rfl nofun
  exact hminus.trans (hb level brackets rest hrest)

theorem append_colon (ha : Spells a u) : Spells (a ++ [':']) (u ++ [word .colon]) :=
  ha.append colon fun rest _ => separates_of_head rfl (by decide) rest

theorem period_name {n : String} (h : IsName n) :
    Spells ('.' :: n.toList) [word .period, Terminal.name n] := by
  intro level brackets rest hrest
  have hname : Reads (inLine level brackets (n.toList ++ rest)) [Terminal.name n]
      (inLine level brackets rest) := Place.reads_name h hrest
  have hperiod : Reads (inLine level brackets ('.' :: (n.toList ++ rest))) [word .period]
      (inLine level brackets (n.toList ++ rest)) := Place.reads_symbol _ _ rfl rfl rfl rfl nofun
  exact hperiod.trans hname

end Spells

/-- The pairs of brackets and the kinds of their tokens. -/
inductive Encloses : Char → Char → TokenKind → TokenKind → Prop where
  | parens : Encloses '(' ')' .openParen .closeParen
  | brackets : Encloses '[' ']' .openBracket .closeBracket
  | braces : Encloses '\x7b' '\x7d' .openBrace .closeBrace

theorem Spells.enclosed {opener closer : Char} {openKind closeKind : TokenKind}
    (h : Encloses opener closer openKind closeKind) {text : List Char} {u : List Terminal}
    (htext : Spells text u) :
    Spells (opener :: text ++ [closer]) (word openKind :: u ++ [word closeKind]) := by
  intro level brackets rest hrest
  have hopen : Reads (inLine level brackets (opener :: (text ++ closer :: rest))) [word openKind]
      (inLine level (opener :: brackets) (text ++ closer :: rest)) := by
    cases h <;> exact Place.reads_symbol _ _ rfl rfl rfl rfl nofun
  have hclose : Reads (inLine level (opener :: brackets) (closer :: rest)) [word closeKind]
      (inLine level brackets rest) := by
    cases h <;> exact Place.reads_symbol _ _ rfl rfl rfl rfl nofun
  have hseparates : Separates (closer :: rest) := by
    cases h <;> exact separates_of_head rfl (by decide) rest
  have hinside := htext level (opener :: brackets) (closer :: rest) hseparates
  simpa using hopen.trans (hinside.trans hclose)

theorem Encloses.opens {opener closer : Char} {openKind closeKind : TokenKind}
    (h : Encloses opener closer openKind closeKind) (tail : List Char) : Opens (opener :: tail) := by
  refine ⟨opener, tail, rfl, ?_⟩
  cases h <;> rfl

theorem Encloses.separates {opener closer : Char} {openKind closeKind : TokenKind}
    (h : Encloses opener closer openKind closeKind) (rest : List Char) :
    Separates (opener :: rest) := by
  cases h <;> exact separates_of_head rfl (by decide) rest

/-! ## Texts of phrases -/

/-- The text begins a lexeme and is read as terminals of the phrase. -/
def Writes (text : List Char) (φ : Phrase) : Prop :=
  Opens text ∧ ∃ u, Derives φ u ∧ Spells text u

theorem Writes.map {text : List Char} {φ ψ : Phrase} (h : Writes text φ)
    (hderives : ∀ u, Derives φ u → Derives ψ u) : Writes text ψ := by
  obtain ⟨hopens, u, hu, hspells⟩ := h
  exact ⟨hopens, u, hderives u hu, hspells⟩

theorem commaSeparated_cons_cons (a b : List Char) (rest : List (List Char)) :
    commaSeparated (a :: b :: rest) = a ++ ([','] ++ ' ' :: commaSeparated (b :: rest)) := by
  simp [commaSeparated, List.intercalate]

theorem opens_commaSeparated {a : List Char} {rest : List (List Char)} (h : Opens a) :
    Opens (commaSeparated (a :: rest)) := by
  cases rest with
  | nil => simpa [commaSeparated, List.intercalate] using h
  | cons b rest =>
    rw [commaSeparated_cons_cons]
    exact h.append _

theorem separated_spells {texts : List (List Char)} {φs : List Phrase}
    (h : List.Forall₂ Writes texts φs) :
    ∃ u, Derives (.separated φs) u ∧ Spells (commaSeparated texts) u := by
  induction h with
  | nil => exact ⟨[], .separatedNil, .nil⟩
  | @cons a φ texts φs ha hrest ih =>
    obtain ⟨-, u, hu, hspells⟩ := ha
    cases hrest with
    | nil => exact ⟨u, .separatedOne hu, by simpa [commaSeparated, List.intercalate] using hspells⟩
    | cons hb hrest =>
      obtain ⟨v, hv, hspells'⟩ := ih
      refine ⟨u ++ word .comma :: v, .separatedCons hu hv, ?_⟩
      rw [commaSeparated_cons_cons]
      have htail := Spells.comma.append_blank hspells' (opens_commaSeparated hb.1)
      exact hspells.append htail fun rest _ => separates_of_head rfl (by decide) _

theorem writes_map {α : Type} {source : α → List Char} {φ : α → Phrase} {items : List α}
    (h : ∀ a ∈ items, Writes (source a) (φ a)) :
    List.Forall₂ Writes (items.map source) (items.map φ) := by
  rw [List.forall₂_map_left_iff, List.forall₂_map_right_iff, List.forall₂_same]
  exact h

/-! ## Operands as parts of expressions -/

namespace Grammar

variable {e : Expr} {u v : List Terminal}

theorem derives_postfixed (h : Derives (.primary e) u) : Derives (.postfixed e) u := by
  have h' : Derives (.postfixed ([].foldl Suffix.apply e)) (u ++ []) := .postfixed h .starNil
  rwa [List.append_nil] at h'

theorem derives_multiplicative (h : Derives (.unary e) u) : Derives (.multiplicative e) u := by
  have h' : Derives (.multiplicative (leftGroup e [])) (u ++ []) := .multiplicative h .starNil
  rwa [List.append_nil] at h'

theorem derives_additive (h : Derives (.multiplicative e) u) : Derives (.additive e) u := by
  have h' : Derives (.additive (leftGroup e [])) (u ++ []) := .additive h .starNil
  rwa [List.append_nil] at h'

theorem derives_expression (h : Derives (.additive e) u) : Derives (.expression e) u := by
  have h' : Derives (.expression (compared e [])) (u ++ []) := .expression h .starNil
  rwa [List.append_nil] at h'

theorem additive_of_unary (h : Derives (.unary e) u) : Derives (.additive e) u :=
  derives_additive (derives_multiplicative h)

theorem additive_of_postfixed (h : Derives (.postfixed e) u) : Derives (.additive e) u :=
  additive_of_unary (.unsigned h)

theorem derives_star_append {ps qs : List Phrase} (h : Derives (.star ps) u)
    (h' : Derives (.star qs) v) : Derives (.star (ps ++ qs)) (u ++ v) := by
  induction ps generalizing u with
  | nil =>
    cases h
    exact h'
  | cons p ps ih =>
    obtain ⟨u₁, u₂, hp, hps, rfl⟩ := derives_star_cons h
    rw [List.append_assoc]
    exact .starCons hp (ih hps)

theorem derives_star_one {p : Phrase} (h : Derives p u) : Derives (.star [p]) u := by
  have h' : Derives (.star [p]) (u ++ []) := .starCons h .starNil
  rwa [List.append_nil] at h'

/-- What follows an operand makes an operand of it again. -/
theorem derives_suffixed {s : Suffix} (h : Derives (.postfixed e) u) (hs : Derives (.suffix s) v) :
    Derives (.postfixed (s.apply e)) (u ++ v) := by
  cases h with
  | @postfixed target u₁ u₂ ss htarget hss =>
    have hstar : Derives (.star ((ss ++ [s]).map .suffix)) (u₂ ++ v) := by
      rw [List.map_append]
      exact derives_star_append hss (derives_star_one hs)
    have h' := Derives.postfixed htarget hstar
    rwa [List.foldl_append, ← List.append_assoc] at h'

/-- Two operands with an operator between them. -/
theorem derives_binary {left right : Expr} {op : Operator} (hop : op.isComparison = false)
    (hleft : Derives (.postfixed left) u) (hright : Derives (.postfixed right) v) :
    Derives (.expression (.binary left op right)) (u ++ word (operatorKind op) :: v) := by
  apply derives_expression
  by_cases hproduct : op = .multiply ∨ op = .divide
  · have hlink : Derives (.star ([(op, right)].map .productLink)) (word (operatorKind op) :: v) :=
      derives_star_one (.productLink hproduct (.unsigned hright))
    exact derives_additive (.multiplicative (.unsigned hleft) hlink)
  · have hsum : op = .add ∨ op = .subtract := by
      cases op <;> simp_all [Operator.isComparison]
    have hlink : Derives (.star ([(op, right)].map .sumLink)) (word (operatorKind op) :: v) :=
      derives_star_one (.sumLink hsum (derives_multiplicative (.unsigned hright)))
    exact .additive (derives_multiplicative (.unsigned hleft)) hlink

/-- As many operators as operands make a comparison of the first one. -/
theorem compared_zip {ops : List Operator} {operands : List Expr} (hne : ops ≠ [])
    (hlength : ops.length = operands.length) :
    compared e (ops.zip operands) = .compare e ops operands := by
  have hzip : ops.zip operands ≠ [] := by
    intro h
    rcases List.zip_eq_nil_iff.mp h with rfl | rfl
    · exact hne rfl
    · exact hne (List.eq_nil_of_length_eq_zero hlength)
  have hisEmpty : (ops.zip operands).isEmpty = false := by simpa using hzip
  unfold compared
  rw [hisEmpty, List.map_fst_zip (Nat.le_of_eq hlength), List.map_snd_zip (Nat.le_of_eq hlength.symm)]
  rfl

end Grammar

/-! ## Texts of operands -/

namespace Writes

variable {e : Expr} {text : List Char}

theorem expression (h : Writes text (.postfixed e)) : Writes text (.expression e) :=
  h.map fun _ hu => derives_expression (additive_of_postfixed hu)

theorem keyword {w : String} {kind : TokenKind} (hkeyword : Lexeme.keyword? w = some kind)
    (hopens : Opens w.toList) (h : Derives (.primary e) [word kind]) :
    Writes w.toList (.postfixed e) :=
  ⟨hopens, _, derives_postfixed h, .keyword hkeyword⟩

/-- A string in quotes that it does not hold. -/
theorem string {quote : Char} (hquote : quote = '"' ∨ quote = '\'') {content : String}
    (hcontent : quote ∉ content.toList) :
    Writes (quote :: content.toList ++ [quote]) (.postfixed (.string content)) := by
  refine ⟨?_, _, derives_postfixed (.string _), ?_⟩
  · rcases hquote with rfl | rfl
    · exact ⟨'"', _, rfl, rfl⟩
    · exact ⟨'\'', _, rfl, rfl⟩
  · intro level brackets rest _
    have hreads : Reads (inLine level brackets (quote :: content.toList ++ quote :: rest)) _
        (inLine level brackets rest) := Place.reads_string hquote hcontent
    simpa using hreads

theorem list {texts : List (List Char)} {items : List Expr}
    (h : List.Forall₂ Writes texts (items.map .expression)) :
    Writes ('[' :: commaSeparated texts ++ [']']) (.postfixed (.list items)) := by
  obtain ⟨u, hu, hspells⟩ := separated_spells h
  exact ⟨Encloses.brackets.opens _, _, derives_postfixed (.list hu), hspells.enclosed .brackets⟩

theorem entry {key value : Expr} {a b : List Char} (hkey : Writes a (.expression key))
    (hvalue : Writes b (.expression value)) :
    Writes (a ++ ':' :: ' ' :: b) (.entry (key, value)) := by
  obtain ⟨hopens, u, hu, hspells⟩ := hkey
  obtain ⟨hopens', v, hv, hspells'⟩ := hvalue
  refine ⟨hopens.append _, _, .entry hu hv, ?_⟩
  exact hspells.append (Spells.colon.append_blank hspells' hopens') fun rest _ =>
    separates_of_head rfl (by decide) _

theorem dictionary {texts : List (List Char)} {entries : List (Expr × Expr)}
    (h : List.Forall₂ Writes texts (entries.map .entry)) :
    Writes ('\x7b' :: commaSeparated texts ++ ['\x7d']) (.postfixed (.dictionary entries)) := by
  obtain ⟨u, hu, hspells⟩ := separated_spells h
  exact ⟨Encloses.braces.opens _, _, derives_postfixed (.dictionary hu), hspells.enclosed .braces⟩

theorem parenthesized {u : List Terminal} (h : Derives (.expression e) u) (htext : Spells text u) :
    Writes ('(' :: text ++ [')']) (.postfixed e) :=
  ⟨Encloses.parens.opens _, _, derives_postfixed (.parenthesized h), htext.enclosed .parens⟩

/-- A suffix in brackets. -/
theorem suffixed {target : Expr} {s : Suffix} {source : List Char} {opener closer : Char}
    {openKind closeKind : TokenKind} {u : List Terminal}
    (htarget : Writes source (.postfixed target)) (h : Encloses opener closer openKind closeKind)
    (hs : Derives (.suffix s) (word openKind :: u ++ [word closeKind])) (htext : Spells text u) :
    Writes (source ++ opener :: text ++ [closer]) (.postfixed (s.apply target)) := by
  obtain ⟨hopens, v, hv, hspells⟩ := htarget
  rw [List.append_assoc]
  refine ⟨hopens.append _, _, derives_suffixed hv hs, ?_⟩
  exact hspells.append (htext.enclosed h) fun rest _ => h.separates _

end Writes

/-! ## Parts of expressions -/

theorem opens_name {n : String} (h : IsName n) : Opens n.toList := by
  obtain ⟨c, tail, htext, hc⟩ := h.head
  exact ⟨c, tail, htext, StartsName.opensLexeme (.inl hc)⟩

theorem opens_of_digits {row : List Char} {c : Char} (hfirst : row.head? = some c)
    (hdigit : isAsciiDigit c = true) : Opens row := by
  cases row with
  | nil => cases hfirst
  | cons first tail =>
    obtain rfl : first = c := by simpa using hfirst
    exact ⟨first, tail, rfl, StartsName.opensLexeme (.inr hdigit)⟩

theorem opens_integerSource {n : Int64} (h : 0 ≤ n.toInt) : Opens (integerSource n) := by
  rw [integerSource_eq h]
  obtain ⟨c, hfirst, hdigit⟩ := (Decimal.isDigits_toDigits n.toInt.toNat).head
  exact opens_of_digits hfirst hdigit

theorem opens_floatText {x : Float} (h : Decimal.IsPlain x) :
    Opens (Decimal.floatText x).toList := by
  obtain ⟨whole, fraction, htext, hwhole, -, -⟩ := Decimal.floatText_spec h
  obtain ⟨c, hfirst, hdigit⟩ := hwhole.head
  rw [htext]
  exact (opens_of_digits hfirst hdigit).append _

/-- A string is read if one of the quotes does not occur in it. -/
theorem stringSource_writes {text : String} (h : '"' ∉ text.toList ∨ '\'' ∉ text.toList) :
    Writes (stringSource text) (.postfixed (.string text)) := by
  by_cases hdouble : '"' ∈ text.toList
  · have hsingle : '\'' ∉ text.toList := h.resolve_left (not_not_intro hdouble)
    simpa [stringSource, hdouble] using Writes.string (.inr rfl) hsingle
  · simpa [stringSource, hdouble] using Writes.string (.inl rfl) hdouble

theorem sources_eq_map (es : List Expr) : Expr.sources es = es.map Expr.source := by
  induction es with
  | nil => rfl
  | cons e rest ih => rw [Expr.sources, ih, List.map_cons]

theorem entrySources_eq_map (entries : List (Expr × Expr)) :
    Expr.entrySources entries = entries.map fun e => e.1.source ++ ':' :: ' ' :: e.2.source := by
  induction entries with
  | nil => rfl
  | cons e rest ih => rw [Expr.entrySources, ih, List.map_cons]

theorem keywordSources_eq_map (keywords : List (String × Expr)) :
    Expr.keywordSources keywords = keywords.map fun k => k.1.toList ++ '=' :: k.2.source := by
  induction keywords with
  | nil => rfl
  | cons k rest ih => rw [Expr.keywordSources, ih, List.map_cons]

theorem keyword_writes {n : String} {value : Expr} (hn : IsName n)
    (hvalue : Writes value.source (.postfixed value)) :
    Writes (n.toList ++ '=' :: value.source) (.argument (.keyword n value)) := by
  obtain ⟨hopens, u, hu, hspells⟩ := hvalue.expression
  refine ⟨(opens_name hn).append _, _, .keyword hu, ?_⟩
  intro level brackets rest hrest
  have hname : Reads (inLine level brackets (n.toList ++ '=' :: (value.source ++ rest))) [name n]
      (inLine level brackets ('=' :: (value.source ++ rest))) :=
    Place.reads_name hn (separates_of_head rfl (by decide) _)
  have hne : ∀ c ∈ (value.source ++ rest).head?, c ≠ '=' := fun c hc =>
    Place.opensLexeme_ne ((hopens.append rest).head c hc) rfl
  have hassign : Reads (inLine level brackets ('=' :: (value.source ++ rest))) [word .assign]
      (inLine level brackets (value.source ++ rest)) := Place.reads_assign hne
  have h := hname.trans (hassign.trans (hspells level brackets rest hrest))
  simpa using h

/-- The links of a comparison, each after a blank. -/
theorem chainSource_spells {ops : List Operator} {operands : List Expr}
    (hops : ∀ op ∈ ops, op.isComparison = true) (hlength : ops.length = operands.length)
    (hoperands : ∀ e ∈ operands, Writes e.source (.postfixed e)) :
    (∃ u, Derives (.star ((ops.zip operands).map .comparisonLink)) u ∧
      Spells (Expr.chainSource operands ops) u) ∧
    ∀ rest, Separates rest → Separates (Expr.chainSource operands ops ++ rest) := by
  induction ops generalizing operands with
  | nil =>
    obtain rfl : operands = [] := by simpa using hlength.symm
    exact ⟨⟨[], .starNil, .nil⟩, fun _ => id⟩
  | cons op ops ih =>
    cases operands with
    | nil => simp at hlength
    | cons e operands =>
      rw [List.forall_mem_cons] at hops hoperands
      obtain ⟨⟨v, hv, hspells'⟩, hseparates⟩ :=
        ih hops.2 (Nat.succ.inj hlength) hoperands.2
      obtain ⟨hopens, u, hu, hspells⟩ := hoperands.1
      refine ⟨⟨_, .starCons (.comparisonLink hops.1 (additive_of_postfixed hu)) hv,
        ?_⟩, fun rest _ => separates_of_head rfl (by decide) _⟩
      have hlink := (Spells.operator_blank op hspells hopens).append hspells' hseparates
      simpa [Expr.chainSource] using hlink

/-! ## Whole expressions -/

/-- The source form of a printable expression is read as an operand. -/
theorem Expr.Printable.writes {e : Expr} (h : e.Printable) : Writes e.source (.postfixed e) := by
  induction h with
  | name hn => exact ⟨opens_name hn, _, derives_postfixed (.nameExpression _), .name hn⟩
  | integer hn =>
    exact ⟨opens_integerSource hn, _, derives_postfixed (.integer _),
      fun _ _ _ => Place.reads_integer hn⟩
  | float hx =>
    exact ⟨opens_floatText hx, _, derives_postfixed (.float _), fun _ _ _ => Place.reads_float hx⟩
  | string htext => exact stringSource_writes htext
  | @boolean b =>
    cases b with
    | true => exact Writes.keyword (w := "true") rfl ⟨'t', _, rfl, rfl⟩ .true
    | false => exact Writes.keyword (w := "false") rfl ⟨'f', _, rfl, rfl⟩ .false
  | null => exact Writes.keyword (w := "null") rfl ⟨'n', _, rfl, rfl⟩ .null
  | list _ ih =>
    rw [Expr.source, sources_eq_map]
    exact .list (writes_map fun e he => (ih e he).expression)
  | dictionary _ _ ihkeys ihvalues =>
    rw [Expr.source, entrySources_eq_map]
    exact .dictionary (writes_map fun e he => (ihkeys e he).expression.entry (ihvalues e he).expression)
  | not _ ih =>
    obtain ⟨hopens, u, hu, hspells⟩ := ih
    have hword : Lexeme.keyword? "not" = some .not := rfl
    exact .parenthesized (derives_expression (additive_of_unary (.not (.unsigned hu))))
      (.keyword_blank hword hspells hopens)
  | negative _ ih =>
    obtain ⟨hopens, u, hu, hspells⟩ := ih
    exact .parenthesized (derives_expression (additive_of_unary (.negative (.unsigned hu))))
      hspells.minus
  | @binary _ op _ _ hop _ ihleft ihright =>
    obtain ⟨-, u, hu, hspells⟩ := ihleft
    obtain ⟨hopens, v, hv, hspells'⟩ := ihright
    have htext := hspells.append (Spells.operator_blank op hspells' hopens) fun rest _ =>
      separates_of_head rfl (by decide) _
    simpa [Expr.source] using Writes.parenthesized (derives_binary hop hu hv) htext
  | compare _ hne hops hlength _ ihfirst ihoperands =>
    obtain ⟨-, u, hu, hspells⟩ := ihfirst
    obtain ⟨⟨v, hv, hspells'⟩, hseparates⟩ := chainSource_spells hops hlength ihoperands
    have hcompare := Derives.expression (additive_of_postfixed hu) hv
    rw [compared_zip hne hlength] at hcompare
    exact .parenthesized hcompare (hspells.append hspells' hseparates)
  | call _ _ hnames _ ihcallee ihargs ihkeywords =>
    have hargs := writes_map fun e he => (ihargs e he).expression.map fun _ => .positional
    have hkeywords := writes_map fun k hk => keyword_writes (hnames k hk) (ihkeywords k hk)
    obtain ⟨u, hu, hspells⟩ := separated_spells (List.rel_append hargs hkeywords)
    rw [Expr.source, sources_eq_map, keywordSources_eq_map]
    exact ihcallee.suffixed .parens (.call hu) hspells
  | index _ _ ihtarget ihkey =>
    obtain ⟨-, u, hu, hspells⟩ := ihkey.expression
    exact ihtarget.suffixed .brackets (.index hu) hspells
  | member _ hn ihtarget =>
    obtain ⟨hopens, u, hu, hspells⟩ := ihtarget
    refine ⟨hopens.append _, _, derives_suffixed hu (.member _), ?_⟩
    exact hspells.append (.period_name hn) fun rest _ => separates_period hn rest

end Offside
