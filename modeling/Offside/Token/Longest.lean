import Offside.Token.Lexeme

/-!
# The longest lexeme

Which scanner wins is told by the first character: an operator of two characters or of one, a word
or a number. The main statement is `race_eq`: the race of the scanners finds this lexeme and leaves
the text after it.
-/

namespace Offside.Lexeme

open Text

/-! ## Kinds and lengths -/

/-- The operator or bracket that a text starts with and its length. -/
def symbol? : List Char → Option (TokenKind × Nat)
  | '=' :: '=' :: _ => some (.equal, 2)
  | '!' :: '=' :: _ => some (.notEqual, 2)
  | '>' :: '=' :: _ => some (.greaterEqual, 2)
  | '<' :: '=' :: _ => some (.lessEqual, 2)
  | c :: _ =>
    match c with
    | '(' => some (.openParen, 1)
    | ')' => some (.closeParen, 1)
    | '[' => some (.openBracket, 1)
    | ']' => some (.closeBracket, 1)
    | '\x7b' => some (.openBrace, 1)
    | '\x7d' => some (.closeBrace, 1)
    | ',' => some (.comma, 1)
    | ':' => some (.colon, 1)
    | '.' => some (.period, 1)
    | '+' => some (.plus, 1)
    | '-' => some (.minus, 1)
    | '*' => some (.star, 1)
    | '/' => some (.slash, 1)
    | '>' => some (.greater, 1)
    | '<' => some (.less, 1)
    | '=' => some (.assign, 1)
    | '!' => some (.not, 1)
    | _ => none
  | [] => none

/-- A keyword or a name. -/
def word? (text : List Char) : Option (TokenKind × Nat) :=
  match text with
  | [] => none
  | c :: _ =>
    if isNameStart c then
      let word := text.takeWhile isNamePart
      some ((keyword? (String.ofList word)).getD .name, word.length)
    else none

def number? (text : List Char) : Option (TokenKind × Nat) :=
  let whole := (text.takeWhile isAsciiDigit).length
  if whole = 0 then none
  else
    match text.drop whole with
    | '.' :: rest =>
      let fraction := (rest.takeWhile isAsciiDigit).length
      if fraction = 0 then some (.int, whole) else some (.float, whole + 1 + fraction)
    | _ => some (.int, whole)

def longest? (text : List Char) : Option (TokenKind × Nat) :=
  symbol? text <|> word? text <|> number? text

theorem length_pos_of_symbol? {text : List Char} {kind : TokenKind} {n : Nat}
    (h : symbol? text = some (kind, n)) : 0 < n := by
  unfold symbol? at h
  split at h <;> try split at h
  all_goals simp_all
  all_goals omega

theorem length_pos_of_word? {text : List Char} {kind : TokenKind} {n : Nat}
    (h : word? text = some (kind, n)) : 0 < n := by
  unfold word? at h
  split at h
  · simp at h
  · split at h
    · rename_i c rest hc
      simp only [Option.some.injEq, Prod.mk.injEq] at h
      rw [← h.2, List.takeWhile_cons_of_pos (isNamePart_of_isNameStart c hc)]
      simp
    · simp at h

theorem length_pos_of_number? {text : List Char} {kind : TokenKind} {n : Nat}
    (h : number? text = some (kind, n)) : 0 < n := by
  unfold number? at h
  simp only at h
  split at h
  · simp at h
  · split at h
    · split at h <;> simp at h <;> omega
    · simp at h; omega

theorem longest?_eq_some {text : List Char} {kind : TokenKind} {n : Nat}
    (h : longest? text = some (kind, n)) :
    symbol? text = some (kind, n) ∨ word? text = some (kind, n) ∨
      number? text = some (kind, n) := by
  unfold longest? at h
  cases hsymbol : symbol? text with
  | some found =>
    rw [hsymbol] at h
    exact .inl h
  | none =>
    rw [hsymbol] at h
    cases hword : word? text with
    | some found =>
      rw [hword] at h
      exact .inr (.inl h)
    | none =>
      rw [hword] at h
      exact .inr (.inr h)

theorem length_pos_of_longest? {text : List Char} {kind : TokenKind} {n : Nat}
    (h : longest? text = some (kind, n)) : 0 < n := by
  obtain h | h | h := longest?_eq_some h
  · exact length_pos_of_symbol? h
  · exact length_pos_of_word? h
  · exact length_pos_of_number? h

/-! ## The finds of the scanners -/

section Finds

variable {text tail : List Char} {c : Char} {kind : TokenKind} {n : Nat}
  {found found' : TokenKind × List Char}

/-- The operators that a text starts with, each with the text after it. -/
def operators (text : List Char) : List (TokenKind × List Char) :=
  symbols.filterMap fun s => literal s.1 s.2 text

theorem filterMap_scanners (text : List Char) :
    scanners.filterMap (· text) =
      operators text ++ (identifier text).toList ++ (number text).toList := by
  unfold scanners operators
  rw [List.filterMap_append, List.filterMap_map, List.append_assoc]
  congr 1
  cases hname : identifier text <;> cases hnumber : number text <;>
    simp [List.filterMap, hname, hnumber]

theorem identifier_eq_none (h : isNameStart c = false) : identifier (c :: tail) = none := by
  simp [identifier, h]

theorem number_eq_none (h : isAsciiDigit c = false) : number (c :: tail) = none := by
  simp [number, digits, h]

theorem filterMap_operators (hname : isNameStart c = false) (hdigit : isAsciiDigit c = false) :
    scanners.filterMap (· (c :: tail)) = operators (c :: tail) := by
  rw [filterMap_scanners, identifier_eq_none hname, number_eq_none hdigit]
  simp

theorem operators_eq_nil (h : symbol? text = none) : operators text = [] := by
  unfold symbol? at h
  split at h
  case h_5 c tail _ _ _ _ =>
    split at h
    case h_18 => simp_all [operators, symbols, literal, eq_comm (b := c)]
    all_goals cases h
  case h_6 => rfl
  all_goals cases h

theorem take_length_takeWhile (p : Char → Bool) (text : List Char) :
    text.take (text.takeWhile p).length = text.takeWhile p :=
  (List.prefix_iff_eq_take.mp (List.takeWhile_prefix p)).symm

theorem drop_length_takeWhile (p : Char → Bool) (text : List Char) :
    text.drop (text.takeWhile p).length = text.dropWhile p := by
  have h : (text.takeWhile p ++ text.dropWhile p).drop (text.takeWhile p).length =
      text.dropWhile p := List.drop_left
  rwa [List.takeWhile_append_dropWhile] at h

theorem identifier_eq (text : List Char) :
    identifier text = (word? text).map fun (kind, n) => (kind, text.drop n) := by
  unfold identifier word?
  cases text with
  | nil => rfl
  | cons first tail =>
    dsimp only
    split
    · rw [cut?_takeWhile, Option.map_some, drop_length_takeWhile]
      rfl
    · rfl

theorem utf8Size_of_isAsciiDigit (h : isAsciiDigit c = true) : c.utf8Size = 1 := by
  have hbounds : '0' ≤ c ∧ c ≤ '9' := by simpa [isAsciiDigit] using h
  have hascii : c.val ≤ 127 := UInt32.le_trans hbounds.2 (by decide)
  simp [Char.utf8Size, hascii]

theorem cut?_digits (text : List Char) : cut? text (digits text) =
    some (text.takeWhile isAsciiDigit, text.dropWhile isAsciiDigit) := by
  have hsize : byteSize (text.takeWhile isAsciiDigit) = digits text :=
    byteSize_eq_length fun c hc =>
      utf8Size_of_isAsciiDigit (List.all_eq_true.mp List.all_takeWhile c hc)
  rw [← hsize, cut?_takeWhile]

theorem drop_digits (text : List Char) :
    text.drop (digits text) = text.dropWhile isAsciiDigit := drop_length_takeWhile _ text

theorem number_eq (text : List Char) :
    number text = (number? text).map fun (kind, n) => (kind, text.drop n) := by
  have hdigits (row : List Char) : (row.takeWhile isAsciiDigit).length = digits row := rfl
  unfold number number?
  simp only [hdigits, cut?_digits, drop_digits]
  split
  · rfl
  cases hafter : text.dropWhile isAsciiDigit with
  | nil => simp [bind, drop_digits, hafter]
  | cons d after =>
    by_cases hd : d = '.'
    · subst hd
      have hdrop (n : Nat) : text.drop (digits text + 1 + n) = after.drop n := by
        rw [← List.drop_drop, ← List.drop_drop, drop_digits, hafter]
        rfl
      by_cases hfraction : digits after = 0
      · simp [bind, hfraction, drop_digits, hafter]
      · simp [bind, hfraction, Nat.pos_of_ne_zero hfraction, hdrop, drop_digits]
    · simp [bind, drop_digits, hafter, hd]

/-! ## The winner -/

theorem race_one (h : scanners.filterMap (· text) = [found])
    (hle : byteSize found.2 ≤ byteSize text) : race scanners text = some found := by
  unfold race
  rw [h]
  simp [better, Nat.lt_succ_of_le hle]

/-- The second of two finds wins only if it is longer. -/
theorem race_two (h : scanners.filterMap (· text) = [found, found'])
    (hle : byteSize found.2 ≤ byteSize text) :
    race scanners text =
      some (if byteSize found'.2 < byteSize found.2 then found' else found) := by
  unfold race
  rw [h]
  simp only [List.foldl_cons, List.foldl_nil, better, Nat.lt_succ_of_le hle, if_true]
  split <;> rfl

/-- An operator of two characters wins against the one that it begins with. -/
theorem race_double (hname : isNameStart c = false) (hdigit : isAsciiDigit c = false)
    (h : ∃ kind', operators (c :: '=' :: tail) = [(kind, tail), (kind', '=' :: tail)] ∨
      operators (c :: '=' :: tail) = [(kind', '=' :: tail), (kind, tail)]) :
    race scanners (c :: '=' :: tail) = some (kind, tail) := by
  have hequals := Char.utf8Size_pos '='
  rw [← filterMap_operators hname hdigit] at h
  obtain ⟨kind', h | h⟩ := h
  · rw [race_two h (by simp only [byteSize_cons]; omega), if_neg]
    simp only [byteSize_cons]
    omega
  · rw [race_two h (by simp only [byteSize_cons]; omega), if_pos]
    simp only [byteSize_cons]
    omega

theorem race_of_symbol? (h : symbol? text = some (kind, n)) :
    race scanners text = some (kind, text.drop n) := by
  unfold symbol? at h
  split at h
  case h_1 =>
    cases h
    refine race_double rfl rfl ⟨.assign, .inl ?_⟩
    simp [operators, symbols, literal]
  case h_2 =>
    cases h
    refine race_double rfl rfl ⟨.not, .inl ?_⟩
    simp [operators, symbols, literal]
  case h_3 =>
    cases h
    refine race_double rfl rfl ⟨.greater, .inr ?_⟩
    simp [operators, symbols, literal]
  case h_4 =>
    cases h
    refine race_double rfl rfl ⟨.less, .inr ?_⟩
    simp [operators, symbols, literal]
  case h_5 c tail h₁ h₂ h₃ h₄ =>
    have hequals (hc : c = '=' ∨ c = '!' ∨ c = '>' ∨ c = '<') : ¬ ['='] <+: tail := by
      rintro ⟨rest, rfl⟩
      rcases hc with rfl | rfl | rfl | rfl
      · exact h₁ rest rfl rfl
      · exact h₂ rest rfl rfl
      · exact h₃ rest rfl rfl
      · exact h₄ rest rfl rfl
    split at h
    all_goals cases h
    all_goals apply race_one
    all_goals try rw [filterMap_operators rfl rfl]
    all_goals simp [operators, symbols, literal, hequals]
  · cases h

/-- No text begins both with a word and with a number. -/
theorem number_of_word? (h : word? text = some (kind, n)) : number text = none := by
  unfold word? at h
  split at h
  · cases h
  · rename_i c tail
    split at h
    · rename_i hname
      apply number_eq_none
      apply Bool.eq_false_iff.mpr
      intro hdigit
      rw [isNameStart_of_isAsciiDigit hdigit] at hname
      cases hname
    · cases h

/-- The race of the scanners finds the longest lexeme and leaves the text after it. -/
theorem race_eq (text : List Char) :
    race scanners text = (longest? text).map fun (kind, n) => (kind, text.drop n) := by
  unfold longest?
  cases hsymbol : symbol? text with
  | some found => exact race_of_symbol? hsymbol
  | none =>
    have hfinds := filterMap_scanners text
    rw [operators_eq_nil hsymbol, List.nil_append] at hfinds
    cases hword : word? text with
    | some found =>
      rw [identifier_eq, hword, number_of_word? hword] at hfinds
      exact race_one hfinds (byteSize_drop_le _ _)
    | none =>
      rw [identifier_eq, hword, number_eq] at hfinds
      cases hnumber : number? text with
      | some found =>
        rw [hnumber] at hfinds
        exact race_one hfinds (byteSize_drop_le _ _)
      | none =>
        rw [hnumber] at hfinds
        unfold race
        rw [hfinds]
        rfl

theorem byteSize_lt_of_race {rest : List Char} (h : race scanners text = some (kind, rest)) :
    byteSize rest < byteSize text := by
  rw [race_eq] at h
  obtain ⟨⟨kind', n⟩, hlongest, hfound⟩ := Option.map_eq_some_iff.mp h
  cases hfound
  have hne : text.take n ≠ [] := by
    cases text with
    | nil => cases hlongest
    | cons c tail =>
      obtain ⟨k, rfl⟩ := Nat.exists_eq_add_one.mpr (length_pos_of_longest? hlongest)
      exact List.cons_ne_nil _ _
  have hsize : byteSize (text.take n ++ text.drop n) = _ := byteSize_append
  rw [List.take_append_drop] at hsize
  have := byteSize_pos hne
  omega

end Finds

end Offside.Lexeme
