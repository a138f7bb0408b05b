import Offside.Proofs.Grammar.Exactness
import Offside.Proofs.Grammar.ExtraLines
import Offside.Proofs.Token.Lexemes
import Offside.Proofs.Token.Locality

/-!
# Blank lines

A line of spaces, with a comment if anything, has no terminals but its line end, and leaves the level
alone. It changes nothing in a program, unless it stands between the head of a block and the block.
-/

namespace Offside

open Grammar (Derives Headed Terminal terminals terminals_append)
open Grammar.Terminal (word)

/-! ## Lines of a text -/

/-- Nothing but spaces, and a comment if anything. -/
inductive IsBlankLine : List Char → Prop where
  | spaces (n : Nat) : IsBlankLine (List.replicate n ' ')
  | comment (n : Nat) {body : List Char} :
    '\n' ∉ body → IsBlankLine (List.replicate n ' ' ++ '#' :: body)

/-- The text with one more line, before the line of this index or at the end. -/
def insertLine (text : List Char) (index : Nat) (line : List Char) : List Char :=
  ['\n'].intercalate ((text.splitOn '\n').insertIdx index line)

/-- Lines that follow another line. -/
def following (lines : List (List Char)) : List Char := lines.flatMap ('\n' :: ·)

theorem following_append (lines lines' : List (List Char)) :
    following (lines ++ lines') = following lines ++ following lines' := List.flatMap_append

theorem isTail_following (lines : List (List Char)) : IsTail (following lines) := by
  cases lines with
  | nil => exact .nil
  | cons line lines => exact .newline _

theorem intercalate_cons (line : List Char) (lines : List (List Char)) :
    ['\n'].intercalate (line :: lines) = line ++ following lines := by
  induction lines generalizing line with
  | nil => simp [following]
  | cons next lines ih =>
    rw [List.intercalate_cons_cons, ih]
    simp [following]

theorem count_following {lines : List (List Char)} (h : ∀ line ∈ lines, '\n' ∉ line) :
    (following lines).count '\n' = lines.length := by
  induction lines with
  | nil => rfl
  | cons line lines ih =>
    obtain ⟨hline, hlines⟩ := List.forall_mem_cons.mp h
    have hrest := ih hlines
    simp only [following] at hrest ⊢
    simp [List.count_append, List.count_eq_zero.mpr hline, hrest]

theorem newline_notMem_of_mem_splitOn {text line : List Char} (h : line ∈ text.splitOn '\n') :
    '\n' ∉ line := by
  induction text generalizing line with
  | nil =>
    rw [List.splitOn_nil, List.mem_singleton] at h
    rw [h]
    exact List.not_mem_nil
  | cons c text ih =>
    obtain ⟨first, lines, hsplit⟩ := List.exists_cons_of_ne_nil (List.splitOn_ne_nil '\n' text)
    rw [List.splitOn_cons_eq_if_modifyHead, hsplit] at h
    rw [hsplit] at ih
    split at h
    · obtain rfl | h := List.mem_cons.mp h
      · exact List.not_mem_nil
      · exact ih h
    · rename_i hc
      obtain rfl | h := List.mem_cons.mp h
      · have hfirst := ih List.mem_cons_self
        simp only [beq_iff_eq] at hc
        simp [hfirst, Ne.symm hc]
      · exact ih (List.mem_cons_of_mem _ h)

theorem insertIdx_eq {α : Type} {l : List α} {i : Nat} (h : i ≤ l.length) (a : α) :
    l.insertIdx i a = l.take i ++ a :: l.drop i := by
  induction i generalizing l with
  | zero => rfl
  | succ i ih =>
    cases l with
    | nil => cases h
    | cons b l =>
      rw [List.insertIdx_succ_cons, ih (Nat.le_of_succ_le_succ h)]
      rfl

/-- Where the text is cut for the line. -/
theorem insertLine_succ {text : List Char} (line : List Char) {index : Nat}
    (h : index + 1 ≤ (text.splitOn '\n').length) :
    ∃ x y, text = x ++ y ∧ IsTail y ∧ x.count '\n' = index ∧
      insertLine text (index + 1) line = x ++ '\n' :: line ++ y := by
  obtain ⟨first, lines, hsplit⟩ := List.exists_cons_of_ne_nil (List.splitOn_ne_nil '\n' text)
  have hfree : ∀ line ∈ first :: lines, '\n' ∉ line := by
    rw [← hsplit]
    exact fun line hline => newline_notMem_of_mem_splitOn hline
  obtain ⟨hfirst, hlines⟩ := List.forall_mem_cons.mp hfree
  have htext : ['\n'].intercalate (text.splitOn '\n') = text := List.intercalate_splitOn '\n'
  rw [hsplit, intercalate_cons, ← List.take_append_drop index lines, following_append] at htext
  rw [hsplit] at h
  have hindex : index ≤ lines.length := Nat.le_of_succ_le_succ h
  refine ⟨first ++ following (lines.take index), following (lines.drop index), ?_,
    isTail_following _, ?_, ?_⟩
  · rw [← htext, List.append_assoc]
  · rw [List.count_append, List.count_eq_zero.mpr hfirst, Nat.zero_add,
      count_following fun line hline => hlines line (List.mem_of_mem_take hline),
      List.length_take_of_le hindex]
  · unfold insertLine
    rw [hsplit, List.insertIdx_succ_cons, intercalate_cons, insertIdx_eq hindex, following_append]
    simp [following]

theorem insertLine_zero (text line : List Char) :
    insertLine text 0 line = line ++ '\n' :: text := by
  obtain ⟨first, lines, hsplit⟩ := List.exists_cons_of_ne_nil (List.splitOn_ne_nil '\n' text)
  have htext : ['\n'].intercalate (text.splitOn '\n') = text := List.intercalate_splitOn '\n'
  unfold insertLine
  rw [List.insertIdx_zero, hsplit, List.intercalate_cons_cons, ← hsplit, htext, List.append_assoc]
  rfl

/-! ## Line ends and blank lines are read -/

namespace Place

variable {level : Nat} {brackets spaces rest line y : List Char} {atLineStart : Bool}

/-- Inside brackets a line end is white space. -/
def lineEndTerminals (brackets : List Char) : List Terminal :=
  if brackets.isEmpty then [word .newline] else []

/-- The spaces of a line that has no level. -/
theorem spelled_indentation_blank (hspaces : ∀ c ∈ spaces, (c == ' ') = true)
    (hrest : ∀ d ∈ rest.head?, Cursor.endsBlank d = true) (hne : spaces ++ rest ≠ []) :
    ReadsSpelled (newLine level (spaces ++ rest)) [] (inLine level [] rest) := by
  apply spelled_of_step
  intro c hc
  obtain ⟨hcut, rfl, hbrackets, hstart⟩ := Place.mk.inj hc
  obtain ⟨first, tail, hcons⟩ := List.exists_cons_of_ne_nil hne
  have hdrop : c.afterSpaces = rest := by
    unfold Cursor.afterSpaces
    rw [hcut]
    refine dropWhile_append_stop hspaces fun d hd => ?_
    have hblank := hrest d hd
    rw [beq_eq_false_iff_ne]
    rintro rfl
    cases hblank
  have hstep := Cursor.step_start hstart hbrackets first tail
  rw [Cursor.indentation_blank (hdrop ▸ hrest), hdrop] at hstep
  refine ⟨first, tail, _, _, hcut.trans hcons, hstep, Cursor.spellings_spaceTokens _, ?_⟩
  simp [ofCursor, Cursor.pass, inLine, hbrackets]

theorem reads_indentation_blank (hspaces : ∀ c ∈ spaces, (c == ' ') = true)
    (hrest : ∀ d ∈ rest.head?, Cursor.endsBlank d = true) (hne : spaces ++ rest ≠ []) :
    Reads (newLine level (spaces ++ rest)) [] (inLine level [] rest) :=
  (spelled_indentation_blank hspaces hrest hne).reads

/-- A step of a cursor that is not where spaces decide the level. -/
theorem reads_of_step_inside {first : Char} {us : List Terminal} {q : Place}
    (hplace : atLineStart = true → brackets ≠ [])
    (h : ∀ c, ofCursor c = ⟨first :: rest, level, brackets, atLineStart⟩ → c.IsInside →
      ∃ ts last, c.step first rest = .ok (ts, last) ∧ terminals ts = us ∧ ofCursor last = q) :
    Reads ⟨first :: rest, level, brackets, atLineStart⟩ us q := by
  apply reads_of_step
  intro c hc
  obtain ⟨hrest, -, hbrackets, hstart⟩ := Place.mk.inj hc
  have hinside : c.IsInside := by
    unfold Cursor.IsInside
    rw [hbrackets, hstart]
    exact hplace
  obtain ⟨ts, last, hstep, hts, hlast⟩ := h c hc hinside
  exact ⟨first, rest, ts, last, hrest, hstep, hts, hlast⟩

theorem reads_lineEnd :
    Reads ⟨'\n' :: rest, level, brackets, atLineStart⟩ (lineEndTerminals brackets)
      ⟨rest, level, brackets, true⟩ := by
  by_cases hblank : atLineStart = true ∧ brackets = []
  · obtain ⟨rfl, rfl⟩ := hblank
    have hindentation :
        Reads (newLine level ([] ++ '\n' :: rest)) [] (inLine level [] ('\n' :: rest)) :=
      reads_indentation_blank (List.forall_mem_nil _) (by simp [Cursor.endsBlank]) (by simp)
    exact hindentation.trans reads_newline
  · refine reads_of_step_inside (fun hstart hbrackets => hblank ⟨hstart, hbrackets⟩) ?_
    intro c hc hinside
    obtain ⟨-, rfl, rfl, rfl⟩ := Place.mk.inj hc
    refine ⟨_, _, Cursor.step_lineEnd hinside rest, ?_, rfl⟩
    unfold lineEndTerminals
    split <;> rfl

/-- Spaces within a line, or in a line inside brackets. -/
theorem reads_spaces (hplace : atLineStart = true → brackets ≠ [])
    (hspaces : ∀ c ∈ spaces, (c == ' ') = true) (hne : spaces ≠ [])
    (hrest : ∀ d ∈ rest.head?, Cursor.isBlank d = false) :
    Reads ⟨spaces ++ rest, level, brackets, atLineStart⟩ [] (inLine level brackets rest) := by
  have hblank : ∀ c ∈ spaces, Cursor.isBlank c = true := by
    intro c hc
    rw [eq_of_beq (hspaces c hc)]
    rfl
  have hdrop := dropWhile_append_stop hblank hrest
  obtain ⟨first, tail, rfl⟩ := List.exists_cons_of_ne_nil hne
  obtain rfl : first = ' ' := by simpa using hspaces first List.mem_cons_self
  refine reads_of_step_inside hplace fun c hc hinside => ?_
  obtain ⟨hcut, rfl, rfl, rfl⟩ := Place.mk.inj hc
  refine ⟨_, _, Cursor.step_space hinside _, rfl, ?_⟩
  have hcut' : c.rest = ' ' :: tail ++ rest := hcut
  simp only [ofCursor, Cursor.pass, inLine, hcut', hdrop]

theorem reads_comment (hplace : atLineStart = true → brackets ≠ []) {body : List Char}
    (hbody : '\n' ∉ body) (hy : IsTail y) :
    Reads ⟨'#' :: body ++ y, level, brackets, atLineStart⟩ [] (inLine level brackets y) := by
  have hline : ∀ c ∈ '#' :: body, (c != '\n') = true := by
    intro c hc
    rw [bne_iff_ne]
    rintro rfl
    obtain hc | hc := List.mem_cons.mp hc
    · cases hc
    · exact hbody hc
  have hdrop : ('#' :: body ++ y).dropWhile (· != '\n') = y :=
    dropWhile_append_stop hline fun d hd => by rw [hy d hd]; rfl
  refine reads_of_step_inside hplace fun c hc hinside => ?_
  obtain ⟨hcut, rfl, rfl, rfl⟩ := Place.mk.inj hc
  refine ⟨_, _, Cursor.step_comment hinside _, rfl, ?_⟩
  have hcut' : c.rest = '#' :: body ++ y := hcut
  simp only [ofCursor, Cursor.pass, inLine, hcut', hdrop]

/-- The spaces at the start of a line that has no level. What follows them is inside the line, but
for the end of the text. -/
theorem reads_blank_spaces (n : Nat) (hrest : ∀ d ∈ rest.head?, d = '#' ∨ d = '\n') :
    ∃ a, Reads ⟨List.replicate n ' ' ++ rest, level, brackets, true⟩ []
      ⟨rest, level, brackets, a⟩ ∧ (rest ≠ [] → a = true → brackets ≠ []) := by
  have hspaces : ∀ c ∈ List.replicate n ' ', (c == ' ') = true := by
    intro c hc
    rw [List.eq_of_mem_replicate hc]
    rfl
  by_cases hbrackets : brackets = []
  · subst hbrackets
    by_cases hne : List.replicate n ' ' ++ rest = []
    · obtain ⟨hn, hnil⟩ := List.append_eq_nil_iff.mp hne
      rw [hn]
      exact ⟨true, .refl _, fun h => absurd hnil h⟩
    · refine ⟨false, reads_indentation_blank hspaces (fun d hd => ?_) hne, nofun⟩
      rcases hrest d hd with rfl | rfl <;> rfl
  · by_cases hn : List.replicate n ' ' = []
    · rw [hn]
      exact ⟨true, .refl _, fun _ _ => hbrackets⟩
    · refine ⟨false, reads_spaces (fun _ => hbrackets) hspaces hn fun d hd => ?_, nofun⟩
      rcases hrest d hd with rfl | rfl <;> rfl

theorem reads_blankLine (hline : IsBlankLine line) (hy : IsTail y) :
    ∃ a, Reads ⟨line ++ y, level, brackets, true⟩ [] ⟨y, level, brackets, a⟩ := by
  cases hline with
  | spaces n =>
    obtain ⟨a, hreads, -⟩ := reads_blank_spaces n fun d hd => .inr (hy d hd)
    exact ⟨a, hreads⟩
  | @comment n body hbody =>
    rw [List.append_assoc]
    have hhead : ∀ d ∈ ('#' :: body ++ y).head?, d = '#' ∨ d = '\n' :=
      fun d hd => .inl (Option.some.inj hd).symm
    obtain ⟨a, hreads, hplace⟩ := reads_blank_spaces n hhead
    exact ⟨false, hreads.trans (reads_comment (hplace (List.cons_ne_nil _ _)) hbody hy)⟩

end Place

/-! ## What stands behind a line -/

open Place (lineEndTerminals ofCursor)

namespace Cursor

variable {c last : Cursor} {ts : List Token}

/-- The terminals of the layout tokens at the end of the text. -/
theorem terminals_closing (c : Cursor) : terminals c.closing =
    word .newline :: List.replicate c.level (word .dedent) ++ [word .endOfFile] := by
  simp [terminals, closing, token, Token.isWhitespace, Terminal.ofToken, word]

/-- At the end of the text. -/
theorem behind_end (c : Cursor) :
    ∃ v, terminals c.closing = lineEndTerminals c.brackets ++ v ∧
      ¬ (c.brackets = [] ∧ v.head? = some (word .indent)) := by
  rw [terminals_closing]
  unfold lineEndTerminals
  split
  · refine ⟨_, rfl, fun h => ?_⟩
    cases hlevel : c.level <;> simp [hlevel, word, List.replicate_succ] at h
  · rename_i hopen
    exact ⟨_, rfl, fun h => hopen (by simp [h.1])⟩

/-- At a line end. An indent that follows stands in the next line. -/
theorem behind_newline {b : List Char} (hrest : c.rest = '\n' :: b) (h : c.Scans ts last)
    (hend : last.rest = []) : ∃ ts₁ vs next, ts = ts₁ ++ vs ∧ next.Scans vs last ∧
      terminals ts₁ = lineEndTerminals c.brackets ∧ ofCursor next = ⟨b, c.level, c.brackets, true⟩ ∧
      next.position.line = c.position.line + 1 := by
  have hplace : ofCursor c = ⟨'\n' :: b, c.level, c.brackets, c.atLineStart⟩ := by
    rw [← hrest]
    rfl
  obtain ⟨ts₁, next, hfirst, hts₁, hnext⟩ := Place.reads_lineEnd c hplace
  obtain ⟨vs, rfl, hsecond⟩ := hfirst.split h hend
  refine ⟨ts₁, vs, next, rfl, hsecond, hts₁, hnext, ?_⟩
  obtain ⟨text, htext, hposition⟩ := hfirst.passes
  have hb : next.rest = b := congrArg Place.rest hnext
  rw [hb, hrest] at htext
  obtain rfl : text = ['\n'] := List.append_cancel_right htext.symm
  rw [hposition]
  rfl

theorem ofToken_mem_terminals {t : Token} (ht : t ∈ ts) (hkind : t.kind ≠ .whitespace) :
    Terminal.ofToken t ∈ terminals ts :=
  List.mem_map_of_mem (List.mem_filter.mpr ⟨ht, by simp [Token.isWhitespace, hkind]⟩)

theorem indent_notMem_of_lineEnd {brackets : List Char} {t : Token}
    (h : terminals ts = lineEndTerminals brackets) (ht : t ∈ ts) : t.kind ≠ .indent := by
  intro hkind
  have hmem := ofToken_mem_terminals ht (by rw [hkind]; nofun)
  rw [h] at hmem
  unfold lineEndTerminals at hmem
  split at hmem
  · have := congrArg Terminal.kind (List.mem_singleton.mp hmem)
    rw [show (Terminal.ofToken t).kind = .indent from hkind] at this
    cases this
  · cases hmem

/-- Behind a line stands its line end, and an indent only if the next line begins with it. Whether
something was read in the line does not matter. -/
theorem behind_line (hy : IsTail c.rest) (h : c.Scans ts last) (hend : last.rest = []) :
    (∀ a, ∃ a', Place.Reads ⟨c.rest, c.level, c.brackets, a⟩ (terminals ts)
      ⟨[], last.level, last.brackets, a'⟩) ∧
    ∃ v, terminals (ts ++ last.closing) = lineEndTerminals c.brackets ++ v ∧
      ((∃ t ∈ ts, t.kind = .indent ∧ t.position.line = c.position.line + 1) ↔
        c.brackets = [] ∧ v.head? = some (word .indent)) := by
  cases hrest : c.rest with
  | nil =>
    cases h with
    | step hcons =>
      rw [hrest] at hcons
      cases hcons
    | refl =>
      obtain ⟨v, hv, hhead⟩ := behind_end c
      refine ⟨fun a => ⟨a, .refl _⟩, v, hv, ?_⟩
      simp [hhead]
  | cons d b =>
    obtain rfl : d = '\n' := hy d (by rw [hrest]; rfl)
    obtain ⟨ts₁, vs, next, rfl, hscans, hts₁, hnext, hline⟩ := behind_newline hrest h hend
    have hlast : ofCursor last = ⟨[], last.level, last.brackets, last.atLineStart⟩ := by
      rw [← hend]
      rfl
    have hreads := hscans.reads
    rw [hnext, hlast] at hreads
    rw [terminals_append, hts₁]
    refine ⟨fun a => ⟨_, Place.reads_lineEnd.trans hreads⟩, terminals (vs ++ last.closing), ?_, ?_⟩
    · rw [List.append_assoc, terminals_append, hts₁]
    rw [← hline]
    constructor
    · rintro ⟨t, ht, hkind, ht'⟩
      obtain ht | ht := List.mem_append.mp ht
      · exact absurd hkind (indent_notMem_of_lineEnd hts₁ ht)
      · have hstart : next.atLineStart = true := congrArg Place.atLineStart hnext
        have hbrackets : next.brackets = c.brackets := congrArg Place.brackets hnext
        obtain ⟨hopen, hhead⟩ := hscans.head_of_indent hstart ht hkind ht'
        refine ⟨hbrackets ▸ hopen, ?_⟩
        rw [terminals_append, List.head?_append, hhead]
        rfl
    · rintro ⟨-, hhead⟩
      rw [terminals_append, List.head?_append, Option.or_eq_some_iff] at hhead
      obtain hhead | ⟨-, hhead⟩ := hhead
      · obtain ⟨-, t, ht, hkind, ht'⟩ := hscans.line_of_indent hhead
        exact ⟨t, List.mem_append_right _ ht, hkind, ht'⟩
      · rw [terminals_closing] at hhead
        cases hhead

/-- An indent of the next line is read behind the cursor. -/
theorem Scans.indent_next_iff {mid : Cursor} {us vs : List Token} (h : c.Scans us mid) :
    (∃ t ∈ us ++ vs ++ last.closing, t.kind = .indent ∧ t.position.line = mid.position.line + 1) ↔
      ∃ t ∈ vs, t.kind = .indent ∧ t.position.line = mid.position.line + 1 := by
  constructor
  · rintro ⟨t, ht, hkind, hat⟩
    rw [List.append_assoc, List.mem_append, List.mem_append] at ht
    obtain ht | ht | ht := ht
    · have := (h.line_mem ht).2
      omega
    · exact ⟨t, ht, hkind, hat⟩
    · exact absurd hkind (mem_closing ht).2
  · rintro ⟨t, ht, hkind, hat⟩
    exact ⟨t, List.mem_append_left _ (List.mem_append_right _ ht), hkind, hat⟩

theorem Scans.line_of_rest {x y : List Char} {us : List Token} {mid : Cursor}
    (h : (ofText (x ++ y)).Scans us mid) (hrest : mid.rest = y) :
    mid.position.line = 1 + x.count '\n' := by
  obtain ⟨text, htext, hposition⟩ := h.passes
  rw [hrest] at htext
  obtain rfl : x = text := List.append_cancel_right htext
  rw [hposition, Text.Position.line_advance]
  rfl

end Cursor

/-! ## Texts with one more line -/

variable {x y line : List Char} {ts : List Token}

/-- Behind the line end there is one more, and no other terminal changes. -/
theorem tokens_insert_succ (h : tokens (String.ofList (x ++ y)) = .ok ts) (hy : IsTail y)
    (hline : IsBlankLine line) (hstring : ∀ t ∈ ts, ¬ t.Spans (1 + x.count '\n')) :
    ∃ ts', tokens (String.ofList (x ++ '\n' :: line ++ y)) = .ok ts' ∧ ∃ u v brackets,
      terminals ts = u ++ lineEndTerminals brackets ++ v ∧
      terminals ts' = u ++ lineEndTerminals brackets ++ lineEndTerminals brackets ++ v ∧
      ((∃ t ∈ ts, t.kind = .indent ∧ t.position.line = 1 + x.count '\n' + 1) ↔
        brackets = [] ∧ v.head? = some (word .indent)) := by
  obtain ⟨all, last, hscans, hend, rfl⟩ := scans_of_tokens h
  rw [String.toList_ofList] at hscans
  have hc : ofCursor (Cursor.ofText (x ++ y)) = (ofCursor (Cursor.ofText x)).before y := rfl
  obtain ⟨us, vs, mid, mid₀, rfl, hfirst, hsecond, hm, hm₀, hreads⟩ | ⟨t, ht, hspans⟩ :=
    hscans.cut hy hend hc
  · obtain ⟨hrest, hlevel, hbrackets, hstart⟩ := Cursor.ofCursor_eq_before.mp hm
    rw [hm₀, List.nil_append] at hrest
    obtain ⟨hlast, v, hv, hindent⟩ := Cursor.behind_line (hrest ▸ hy) hsecond hend
    obtain ⟨a, hblank⟩ : ∃ a, Place.Reads ⟨line ++ y, mid.level, mid.brackets, true⟩ []
        ⟨y, mid.level, mid.brackets, a⟩ := Place.reads_blankLine hline hy
    rw [hrest] at hlast
    obtain ⟨a', hbehind⟩ := hlast a
    have hbefore := hreads ('\n' :: (line ++ y)) (.newline _)
    rw [show (ofCursor mid₀).before ('\n' :: (line ++ y)) =
      ⟨'\n' :: (line ++ y), mid.level, mid.brackets, mid.atLineStart⟩ by
        simp [ofCursor, Place.before, hm₀, hlevel, hbrackets, hstart]] at hbefore
    have hrun := hbefore.trans (Place.reads_lineEnd.trans (hblank.trans hbehind))
    obtain ⟨ts', hts', hterminals⟩ := Place.tokens_of_reads hrun
    refine ⟨ts', ?_, terminals us, v, mid.brackets, ?_, ?_, ?_⟩
    · rw [List.append_assoc, List.cons_append]
      exact hts'
    · rw [List.append_assoc, terminals_append, hv, List.append_assoc]
    · rw [hterminals]
      rw [terminals_append, Cursor.terminals_closing] at hv
      simp only [List.nil_append, List.append_assoc, List.cons_append] at hv ⊢
      rw [hv]
    · rw [← hindent, ← hfirst.line_of_rest hrest]
      exact hfirst.indent_next_iff
  · exact absurd hspans (hstring t (List.mem_append_left _ ht))

theorem tokens_insert_zero {text : List Char} (h : tokens (String.ofList text) = .ok ts)
    (hline : IsBlankLine line) : ∃ ts', tokens (String.ofList (line ++ '\n' :: text)) = .ok ts' ∧
      terminals ts' = word .newline :: terminals ts := by
  obtain ⟨us, last, hscans, hend, rfl⟩ := scans_of_tokens h
  rw [String.toList_ofList] at hscans
  obtain ⟨a, hblank⟩ : ∃ a, Place.Reads ⟨line ++ '\n' :: text, 0, [], true⟩ []
      ⟨'\n' :: text, 0, [], a⟩ := Place.reads_blankLine hline (.newline text)
  have hlast : ofCursor last = ⟨[], last.level, last.brackets, last.atLineStart⟩ := by
    rw [← hend]
    rfl
  have htext := hscans.reads
  rw [hlast] at htext
  obtain ⟨ts', hts', hterminals⟩ :=
    Place.tokens_of_reads (hblank.trans (Place.reads_lineEnd.trans htext))
  refine ⟨ts', hts', ?_⟩
  rw [hterminals, terminals_append, Cursor.terminals_closing]
  simp [lineEndTerminals]

/-- An indent stands in the line. -/
def BeginsBlock (ts : List Token) (line : Nat) : Prop :=
  ∃ t ∈ ts, t.kind = .indent ∧ t.position.line = line

/-- The first line of a program begins no block. -/
theorem not_beginsBlock_one {source : String} {p : Program} (hts : tokens source = .ok ts)
    (hp : Program.ofTokens ts = .ok p) : ¬ BeginsBlock ts 1 := by
  rintro ⟨t, ht, hkind, hat⟩
  have hderives := Grammar.derives_of_ofTokens (tokens_agree hts) hp
  obtain ⟨us, last, hscans, -, rfl⟩ := scans_of_tokens hts
  refine Grammar.program_head hderives ?_
  obtain ht | ht := List.mem_append.mp ht
  · obtain ⟨-, hhead⟩ := hscans.head_of_indent rfl ht hkind hat
    rw [terminals_append, List.head?_append, hhead]
    rfl
  · exact absurd hkind (Cursor.mem_closing ht).2

/-- A blank line more, anywhere but in a string, leaves a program alone. Only before the line that
begins a block it must not stand. -/
theorem Program.insert_blankLine {source : String} {p : Program} {index : Nat} {line : List Char}
    (hts : tokens source = .ok ts) (hp : Program.ofTokens ts = .ok p)
    (hindex : index ≤ (source.toList.splitOn '\n').length) (hline : IsBlankLine line)
    (hstring : ∀ t ∈ ts, ¬ t.Spans index) :
    ∃ ts', tokens (String.ofList (insertLine source.toList index line)) = .ok ts' ∧
      (¬ BeginsBlock ts (index + 1) → Program.ofTokens ts' = .ok p) ∧
      (BeginsBlock ts (index + 1) → ∀ q, Program.ofTokens ts' ≠ .ok q) := by
  have hderives := Grammar.derives_of_ofTokens (tokens_agree hts) hp
  have hsource : tokens (String.ofList source.toList) = .ok ts := by
    rwa [String.ofList_toList]
  cases index with
  | zero =>
    rw [insertLine_zero]
    obtain ⟨ts', hts', hterminals⟩ := tokens_insert_zero hsource hline
    refine ⟨ts', hts', fun _ => ?_, fun hblock => absurd hblock (not_beginsBlock_one hts hp)⟩
    apply Grammar.ofTokens_of_derives
    rw [hterminals]
    generalize hu : terminals ts = u at hderives
    cases hderives with
    | program hitems => exact .program (.itemsLine hitems)
  | succ index =>
    obtain ⟨x, y, hxy, hy, hcount, hinsert⟩ := insertLine_succ line hindex
    rw [hxy] at hsource
    rw [hinsert]
    have hat : 1 + x.count '\n' = index + 1 := by omega
    rw [← hat] at hstring ⊢
    obtain ⟨ts', hts', u, v, brackets, hold, hnew, hblock⟩ :=
      tokens_insert_succ hsource hy hline hstring
    refine ⟨ts', hts', ?_⟩
    unfold BeginsBlock
    rw [hblock]
    by_cases hopen : brackets = []
    · subst hopen
      have hone : lineEndTerminals [] = [word .newline] := rfl
      rw [hold, hone, List.append_assoc, List.singleton_append] at hderives
      rw [hone, List.append_assoc, List.append_assoc, List.singleton_append,
        List.singleton_append] at hnew
      obtain ⟨hsame, hnone⟩ := Grammar.program_newline hderives
      constructor
      · intro hhead
        apply Grammar.ofTokens_of_derives
        rw [hnew]
        exact hsame fun h => hhead ⟨rfl, h⟩
      · rintro ⟨-, hhead⟩ q hq
        refine hnone hhead q ?_
        rw [← hnew]
        exact Grammar.derives_of_ofTokens (tokens_agree hts') hq
    · have hno : lineEndTerminals brackets = [] := if_neg (by simpa using hopen)
      refine ⟨fun _ => Grammar.ofTokens_of_derives ?_, fun h => absurd h.1 hopen⟩
      rwa [hnew, hno, List.append_nil, List.append_nil, ← List.append_nil u, ← hno, ← hold]

/-- The tokens of `if x:` with the block `y`. -/
def branchTokens : List Token :=
  [⟨.ifWord, .none, "if", ⟨1, 1⟩⟩, ⟨.whitespace, .none, " ", ⟨1, 3⟩⟩,
    ⟨.name, .name "x", "x", ⟨1, 4⟩⟩, ⟨.colon, .none, ":", ⟨1, 5⟩⟩,
    ⟨.newline, .none, "\n", ⟨1, 6⟩⟩, ⟨.indent, .none, "", ⟨2, 1⟩⟩,
    ⟨.whitespace, .none, "    ", ⟨2, 1⟩⟩, ⟨.name, .name "y", "y", ⟨2, 5⟩⟩,
    ⟨.newline, .none, "\n", ⟨2, 6⟩⟩, ⟨.newline, .none, "", ⟨3, 1⟩⟩,
    ⟨.dedent, .none, "", ⟨3, 1⟩⟩, ⟨.endOfFile, .none, "", ⟨3, 1⟩⟩]

/-- The same with an empty line before the block. -/
def spacedBranchTokens : List Token :=
  [⟨.ifWord, .none, "if", ⟨1, 1⟩⟩, ⟨.whitespace, .none, " ", ⟨1, 3⟩⟩,
    ⟨.name, .name "x", "x", ⟨1, 4⟩⟩, ⟨.colon, .none, ":", ⟨1, 5⟩⟩,
    ⟨.newline, .none, "\n", ⟨1, 6⟩⟩, ⟨.newline, .none, "\n", ⟨2, 1⟩⟩,
    ⟨.indent, .none, "", ⟨3, 1⟩⟩, ⟨.whitespace, .none, "    ", ⟨3, 1⟩⟩,
    ⟨.name, .name "y", "y", ⟨3, 5⟩⟩, ⟨.newline, .none, "\n", ⟨3, 6⟩⟩,
    ⟨.newline, .none, "", ⟨4, 1⟩⟩, ⟨.dedent, .none, "", ⟨4, 1⟩⟩,
    ⟨.endOfFile, .none, "", ⟨4, 1⟩⟩]

def branchProgram : Program := [.ifElse (.name "x") [.expression (.name "y")] [] none]

theorem branchTokens_no_string (index : Nat) : ∀ t ∈ branchTokens, ¬ t.Spans index := by
  simp [branchTokens, Token.Spans]

theorem insert_comment_branch :
    tokens "if x:\n    y\n" = .ok branchTokens ∧
      Program.ofTokens branchTokens = .ok branchProgram ∧
      ∃ ts', tokens (String.ofList (insertLine "if x:\n    y\n".toList 2 "  # end".toList)) = .ok ts' ∧
        Program.ofTokens ts' = .ok branchProgram := by
  have htokens : tokens "if x:\n    y\n" = .ok branchTokens := by decide +kernel
  have hlines : 2 ≤ ("if x:\n    y\n".toList.splitOn '\n').length := by decide +kernel
  have hcomment : IsBlankLine "  # end".toList := .comment 2 (by decide)
  have hblock : ¬ BeginsBlock branchTokens 3 := by simp [BeginsBlock, branchTokens]
  obtain ⟨ts', hts', hsame, -⟩ :=
    Program.insert_blankLine htokens rfl hlines hcomment (branchTokens_no_string 2)
  exact ⟨htokens, rfl, ts', hts', hsame hblock⟩

/-- An empty line before a block, outside of strings, makes a program unreadable. -/
theorem insert_empty_branch :
    tokens "if x:\n    y\n" = .ok branchTokens ∧
      Program.ofTokens branchTokens = .ok branchProgram ∧
      IsBlankLine [] ∧ (∀ t ∈ branchTokens, ¬ t.Spans 1) ∧
      tokens (String.ofList (insertLine "if x:\n    y\n".toList 1 [])) = .ok spacedBranchTokens ∧
      ∀ p, Program.ofTokens spacedBranchTokens ≠ .ok p := by
  refine ⟨by decide +kernel, rfl, .spaces 0, branchTokens_no_string 1, by decide +kernel, ?_⟩
  intro p h
  cases h

end Offside
