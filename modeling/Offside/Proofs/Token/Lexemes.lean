import Mathlib.Data.List.TakeWhile
import Offside.Proofs.Decimal.RoundTrip
import Offside.Proofs.Token.Scanning
import Offside.Syntax.Source

/-!
# Lexemes in a line

Each symbol, word and literal is read as its token, as long as what stands after it could not be
part of it.
-/

namespace Offside

open Text
open Decimal (IsDigits)
open Grammar (Terminal operatorKind)
open Grammar.Terminal (word name)

/-! ## Characters of names and numbers -/

theorem isNamePart_of_isAsciiDigit {c : Char} (h : isAsciiDigit c = true) : isNamePart c = true := by
  have hlt : c.toNat < 128 := by
    simp only [isAsciiDigit, Bool.and_eq_true, decide_eq_true_eq] at h
    have : c.toNat ≤ '9'.toNat := h.2
    exact Nat.lt_of_le_of_lt this (by decide)
  simp [isNamePart, isNumeric, hlt, h]

/-- What stands after a name or a number ends it. -/
structure Separates (rest : List Char) : Prop where
  word : ∀ c ∈ rest.head?, isNamePart c = false
  number : ∀ c tail, rest = '.' :: c :: tail → isAsciiDigit c = false

theorem Separates.nil : Separates [] := ⟨nofun, nofun⟩

theorem Separates.digit {rest : List Char} (h : Separates rest) :
    ∀ c ∈ rest.head?, isAsciiDigit c = false := by
  intro c hc
  cases hdigit : isAsciiDigit c with
  | false => rfl
  | true =>
    have := h.word c hc
    rw [isNamePart_of_isAsciiDigit hdigit] at this
    exact this

theorem takeWhile_append_stop {p : Char → Bool} {a rest : List Char} (ha : ∀ c ∈ a, p c = true)
    (hrest : ∀ c ∈ rest.head?, p c = false) : (a ++ rest).takeWhile p = a := by
  rw [List.takeWhile_append_of_pos ha]
  cases rest with
  | nil => simp
  | cons c tail => simp [hrest c rfl]

theorem dropWhile_append_stop {p : Char → Bool} {a rest : List Char} (ha : ∀ c ∈ a, p c = true)
    (hrest : ∀ c ∈ rest.head?, p c = false) : (a ++ rest).dropWhile p = rest := by
  rw [List.dropWhile_append_of_pos ha]
  cases rest with
  | nil => rfl
  | cons c tail => simp [hrest c rfl]

/-- A character that words or numbers begin with. -/
def StartsName (c : Char) : Prop := isNameStart c = true ∨ isAsciiDigit c = true

theorem StartsName.ne {c a : Char} (h : StartsName c) (hname : isNameStart a = false)
    (hdigit : isAsciiDigit a = false) : c ≠ a := by
  rintro rfl
  rcases h with h | h
  · rw [hname] at h
    cases h
  · rw [hdigit] at h
    cases h

theorem StartsName.startsWord {c : Char} (h : StartsName c) : Place.startsWord c = true := by
  simp [Place.startsWord, Cursor.isBlank, h.ne (a := ' ') rfl rfl, h.ne (a := '\t') rfl rfl,
    h.ne (a := '\r') rfl rfl, h.ne (a := '\n') rfl rfl, h.ne (a := '#') rfl rfl,
    h.ne (a := '"') rfl rfl, h.ne (a := '\'') rfl rfl]

theorem StartsName.opensLexeme {c : Char} (h : StartsName c) : Place.opensLexeme c = true := by
  simp [Place.opensLexeme, Cursor.isBlank, h.ne (a := ' ') rfl rfl, h.ne (a := '\t') rfl rfl,
    h.ne (a := '\r') rfl rfl, h.ne (a := '\n') rfl rfl, h.ne (a := '#') rfl rfl,
    h.ne (a := '=') rfl rfl]

theorem symbol?_eq_none {c : Char} {tail : List Char} (h : StartsName c) :
    Lexeme.symbol? (c :: tail) = none := by
  unfold Lexeme.symbol?
  split
  iterate 4
    rename_i heq
    exact absurd (List.cons.inj heq).1 (h.ne rfl rfl)
  · rename_i heq
    obtain ⟨rfl, rfl⟩ := List.cons.inj heq
    split
    all_goals first | rfl | exact absurd rfl (h.ne rfl rfl)
  · rfl

/-- A word that is scanned whole is scanned alike before what ends it. -/
theorem word?_append {w rest : List Char} {kind : TokenKind}
    (hword : Lexeme.word? w = some (kind, w.length)) (hrest : Separates rest) :
    (∃ c tail, w = c :: tail ∧ isNameStart c = true) ∧
      Lexeme.word? (w ++ rest) = some (kind, w.length) := by
  cases w with
  | nil => cases hword
  | cons c tail =>
    unfold Lexeme.word? at hword
    split at hword
    · cases hword
    · rename_i c' tail' hcons
      obtain ⟨rfl, rfl⟩ := List.cons.inj hcons
      split at hword
      · rename_i hstart
        simp only [Option.some.injEq, Prod.mk.injEq] at hword
        have htake : (c :: tail).takeWhile isNamePart = c :: tail :=
          (List.takeWhile_prefix _).eq_of_length hword.2
        have hall : ∀ a ∈ c :: tail, isNamePart a = true := by
          rw [← htake]
          exact fun a ha => List.mem_takeWhile_imp ha
        refine ⟨⟨c, tail, rfl, hstart⟩, ?_⟩
        rw [htake] at hword
        unfold Lexeme.word?
        rw [List.cons_append]
        simp only [hstart, if_true]
        rw [← List.cons_append, takeWhile_append_stop hall hrest.word, hword.1]
      · cases hword

/-! ## Words and numbers -/

/-- A name as it is scanned, and no keyword. -/
def IsName (n : String) : Prop := Lexeme.word? n.toList = some (.name, n.toList.length)

theorem IsName.head {n : String} (h : IsName n) :
    ∃ c tail, n.toList = c :: tail ∧ isNameStart c = true :=
  (word?_append h .nil).1

theorem word?_of_keyword? {w : String} {kind : TokenKind} (h : Lexeme.keyword? w = some kind) :
    Lexeme.word? w.toList = some (kind, w.toList.length) := by
  unfold Lexeme.keyword? at h
  split at h
  all_goals cases h
  all_goals rfl

theorem Decimal.IsDigits.head {row : List Char} (h : IsDigits row) :
    ∃ c, row.head? = some c ∧ isAsciiDigit c = true := by
  obtain ⟨hne, hall⟩ := h
  cases row with
  | nil => exact absurd rfl hne
  | cons c tail => exact ⟨c, rfl, hall c List.mem_cons_self⟩

theorem number?_digits {row rest : List Char} (hrow : IsDigits row) (hrest : Separates rest) :
    Lexeme.number? (row ++ rest) = some (.int, row.length) := by
  have htake := takeWhile_append_stop hrow.2 hrest.digit
  have hne : row.length ≠ 0 := fun h => hrow.1 (List.eq_nil_of_length_eq_zero h)
  unfold Lexeme.number?
  simp only [htake, List.drop_left, if_neg hne]
  split
  · rename_i tail
    have hzero : tail.takeWhile isAsciiDigit = [] := by
      cases tail with
      | nil => rfl
      | cons c tail => simp [hrest.number c tail rfl]
    simp [hzero]
  · rfl

theorem number?_point {whole fraction rest : List Char} (hwhole : IsDigits whole)
    (hfraction : IsDigits fraction) (hrest : ∀ c ∈ rest.head?, isAsciiDigit c = false) :
    Lexeme.number? (whole ++ '.' :: fraction ++ rest) =
      some (.float, whole.length + 1 + fraction.length) := by
  have htake : (whole ++ '.' :: fraction ++ rest).takeWhile isAsciiDigit = whole := by
    rw [List.append_assoc]
    exact takeWhile_append_stop hwhole.2 (by simp [isAsciiDigit])
  have hdrop : (whole ++ '.' :: fraction ++ rest).drop whole.length = '.' :: (fraction ++ rest) := by
    simp
  have hne : whole.length ≠ 0 := fun h => hwhole.1 (List.eq_nil_of_length_eq_zero h)
  have hne' : fraction.length ≠ 0 := fun h => hfraction.1 (List.eq_nil_of_length_eq_zero h)
  unfold Lexeme.number?
  simp only [htake, hdrop, if_neg hne, takeWhile_append_stop hfraction.2 hrest, if_neg hne']

theorem float_point {whole fraction : List Char} (hwhole : IsDigits whole) :
    Lexeme.float (whole ++ '.' :: fraction) =
      Decimal.toFloat (Decimal.digitsValue (whole ++ fraction)) (-(fraction.length : Int)) := by
  have htake : (whole ++ '.' :: fraction).takeWhile isAsciiDigit = whole :=
    takeWhile_append_stop hwhole.2 (by simp [isAsciiDigit])
  have hdrop : (whole ++ '.' :: fraction).drop (whole.length + 1) = fraction := by
    rw [← List.drop_drop, List.drop_left]
    rfl
  simp only [Lexeme.float, htake, hdrop]

theorem integerSource_eq {n : Int64} (hn : 0 ≤ n.toInt) :
    integerSource n = Nat.toDigits 10 n.toInt.toNat := by
  obtain ⟨k, hk⟩ := Int.eq_ofNat_of_zero_le hn
  unfold integerSource
  rw [hk, Int.toNat_natCast]
  exact String.toList_ofList

theorem value?_toDigits {n : Int64} (hn : 0 ≤ n.toInt) :
    Lexeme.value? .int (Nat.toDigits 10 n.toInt.toNat) = some (.int n) := by
  have hle : n.toInt.toNat ≤ Lexeme.maxInteger := by
    have := n.toInt_lt
    unfold Lexeme.maxInteger
    omega
  have hofNat : Int64.ofNat n.toInt.toNat = n := by
    rw [← Int64.ofInt_eq_ofNat, Int.toNat_of_nonneg hn, Int64.ofInt_toInt]
  simp only [Lexeme.value?, Lexeme.integer?, Decimal.digitsValue_toDigits, if_pos hle, hofNat,
    Option.map_some]

/-! ## Symbols and words that are read -/

namespace Place

variable {level : Nat} {brackets rest : List Char}

/-- A symbol of one character. -/
theorem reads_symbol (c : Char) (kind : TokenKind) {brackets' : List Char}
    (hsymbol : Lexeme.symbol? (c :: rest) = some (kind, 1)) (hfirst : startsWord c = true)
    (hvalue : Lexeme.value? kind [c] = some .none)
    (hbrackets : Cursor.bracketsAfter? brackets kind = some brackets')
    (hkind : kind ≠ .whitespace) :
    Reads (inLine level brackets (c :: rest)) [word kind] (inLine level brackets' rest) := by
  have h : Reads (inLine level brackets ([c] ++ rest)) [word kind] (inLine level brackets' rest) :=
    reads_lexeme (by simpa using hfirst) (by simp [Lexeme.longest?, hsymbol]) hvalue hbrackets hkind
  exact h

/-- A single equals sign. -/
theorem reads_assign (hrest : ∀ c ∈ rest.head?, c ≠ '=') :
    Reads (inLine level brackets ('=' :: rest)) [word .assign] (inLine level brackets rest) := by
  refine reads_symbol '=' .assign ?_ rfl rfl rfl nofun
  cases rest with
  | nil => rfl
  | cons c tail =>
    unfold Lexeme.symbol?
    split
    · rename_i h
      exact absurd (List.cons.inj (List.cons.inj h).2).1 (hrest c rfl)
    all_goals first | rfl | (rename_i h; cases h)
    rfl

/-- An operator before a space. -/
theorem reads_operator (op : Operator) :
    Reads (inLine level brackets (op.source ++ ' ' :: rest)) [word (operatorKind op)]
      (inLine level brackets (' ' :: rest)) := by
  refine reads_lexeme ?_ ?_ ?_ ?_ ?_
  · cases op <;> simp [Operator.source, Operator.symbol] <;> rfl
  · cases op <;> rfl
  · cases op <;> rfl
  · cases op <;> rfl
  · cases op <;> exact nofun

theorem reads_word {w : List Char} {kind : TokenKind} {value : TokenValue}
    (hword : Lexeme.word? w = some (kind, w.length)) (hrest : Separates rest)
    (hvalue : Lexeme.value? kind w = some value)
    (hbrackets : Cursor.bracketsAfter? brackets kind = some brackets) (hkind : kind ≠ .whitespace) :
    Reads (inLine level brackets (w ++ rest)) [⟨kind, value⟩] (inLine level brackets rest) := by
  obtain ⟨⟨c, tail, rfl, hstart⟩, happend⟩ := word?_append hword hrest
  refine reads_lexeme ?_ ?_ hvalue hbrackets hkind
  · intro first hfirst
    obtain rfl : c = first := by simpa using hfirst
    exact StartsName.startsWord (.inl hstart)
  · unfold Lexeme.longest?
    rw [happend, List.cons_append, symbol?_eq_none (.inl hstart)]
    rfl

/-! ## Words and literals that are read -/

theorem reads_keyword {w : String} {kind : TokenKind} (hkeyword : Lexeme.keyword? w = some kind)
    (hrest : Separates rest) :
    Reads (inLine level brackets (w.toList ++ rest)) [word kind] (inLine level brackets rest) := by
  refine reads_word (word?_of_keyword? hkeyword) hrest ?_ ?_ ?_
  all_goals
    unfold Lexeme.keyword? at hkeyword
    split at hkeyword
    all_goals cases hkeyword
  all_goals first | rfl | exact nofun

theorem reads_name {n : String} (hname : IsName n) (hrest : Separates rest) :
    Reads (inLine level brackets (n.toList ++ rest)) [name n] (inLine level brackets rest) := by
  refine reads_word hname hrest ?_ rfl nofun
  simp [Lexeme.value?]

theorem reads_digits {row : List Char} {kind : TokenKind} {value : TokenValue}
    {c : Char} (hfirst : row.head? = some c) (hdigit : isAsciiDigit c = true)
    (hnumber : Lexeme.number? (row ++ rest) = some (kind, row.length))
    (hvalue : Lexeme.value? kind row = some value)
    (hbrackets : Cursor.bracketsAfter? brackets kind = some brackets) (hkind : kind ≠ .whitespace) :
    Reads (inLine level brackets (row ++ rest)) [⟨kind, value⟩] (inLine level brackets rest) := by
  cases row with
  | nil => cases hfirst
  | cons first tail =>
    obtain rfl : first = c := by simpa using hfirst
    have hstart : StartsName first := .inr hdigit
    refine reads_lexeme ?_ ?_ hvalue hbrackets hkind
    · intro a ha
      obtain rfl : first = a := by simpa using ha
      exact hstart.startsWord
    · unfold Lexeme.longest?
      rw [hnumber, List.cons_append, symbol?_eq_none hstart]
      simp [Lexeme.word?, isNameStart_of_isAsciiDigit hdigit]

theorem reads_integer {n : Int64} (hn : 0 ≤ n.toInt) (hrest : Separates rest) :
    Reads (inLine level brackets (integerSource n ++ rest)) [⟨.int, .int n⟩]
      (inLine level brackets rest) := by
  rw [integerSource_eq hn]
  have hdigits := Decimal.isDigits_toDigits n.toInt.toNat
  obtain ⟨c, hfirst, hdigit⟩ := hdigits.head
  exact reads_digits hfirst hdigit (number?_digits hdigits hrest) (value?_toDigits hn) rfl nofun

/-- Digits, a point and digits are read as the nearest float. -/
theorem reads_point {whole fraction : List Char} (hwhole : IsDigits whole)
    (hfraction : IsDigits fraction) (hrest : Separates rest) :
    Reads (inLine level brackets (whole ++ '.' :: fraction ++ rest))
      [⟨.float, .float (Decimal.toFloat (Decimal.digitsValue (whole ++ fraction))
        (-(fraction.length : Int)))⟩] (inLine level brackets rest) := by
  obtain ⟨c, hfirst, hdigit⟩ := hwhole.head
  refine reads_digits (c := c) ?_ hdigit ?_ ?_ rfl nofun
  · rw [List.head?_append, hfirst]
    rfl
  · rw [number?_point hwhole hfraction hrest.digit]
    simp [Nat.add_comm, Nat.add_left_comm]
  · simp only [Lexeme.value?, float_point hwhole]

theorem reads_float {x : Float} (hx : Decimal.IsPlain x) (hrest : Separates rest) :
    Reads (inLine level brackets ((Decimal.floatText x).toList ++ rest)) [⟨.float, .float x⟩]
      (inLine level brackets rest) := by
  obtain ⟨whole, fraction, htext, hwhole, hfraction, hread⟩ := Decimal.floatText_spec hx
  have hpoint : Reads (inLine level brackets (whole ++ '.' :: fraction ++ rest)) _
      (inLine level brackets rest) := reads_point hwhole hfraction hrest
  rwa [hread, ← htext] at hpoint

end Place

end Offside
