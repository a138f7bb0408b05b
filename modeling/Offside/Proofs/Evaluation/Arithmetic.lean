import Offside.Machine
import Offside.Proofs.Store.Meets
import Offside.Proofs.Value.Number

/-!
# Integer arithmetic is exact or refused

An expression of integers and operations on them stands for an integer, unless a divisor in it
stands for zero. If all parts of it stand for integers of 64 bits, it evaluates to the one that it
stands for. If not, it fails for the first part that does not, where the operands of an operation
come before the operation, and the left one before the right one.
-/

namespace Offside

/-! ## Arithmetic without bounds -/

/-- The integer has 64 bits. -/
def Number.Fits (n : Int) : Prop := -9223372036854775808 ≤ n ∧ n ≤ 9223372036854775807

instance (n : Int) : Decidable (Number.Fits n) := inferInstanceAs (Decidable (_ ∧ _))

/-- What an operation on integers gives, if it gives anything. Division truncates toward zero. -/
def Operator.result? (op : Operator) (a b : Int) : Option Int :=
  match op with
  | .add => some (a + b)
  | .subtract => some (a - b)
  | .multiply => some (a * b)
  | .divide => if b = 0 then none else some (a.tdiv b)
  | _ => none

namespace Expr

/-- The expression is made of integers by negation and the four operations. -/
inductive IsArithmetic : Expr → Prop where
  | integer (n : Int64) : IsArithmetic (.integer n)
  | negative {operand : Expr} : IsArithmetic operand → IsArithmetic (.negative operand)
  | binary {left right : Expr} {op : Operator} : op.isComparison = false → IsArithmetic left →
    IsArithmetic right → IsArithmetic (.binary left op right)

/-- The integer that the expression stands for. There is none where a divisor stands for zero. -/
def denoted? : Expr → Option Int
  | .integer n => some n.toInt
  | .negative operand => operand.denoted?.map (- ·)
  | .binary left op right => do op.result? (← left.denoted?) (← right.denoted?)
  | _ => none

/-- The expression stands for an integer of 64 bits. -/
def fits (e : Expr) : Bool := e.denoted?.any fun n => decide (Number.Fits n)

/-- The expression and all in it, operands before their operation and from left to right. -/
def parts : Expr → List Expr
  | .negative operand => operand.parts ++ [.negative operand]
  | .binary left op right => left.parts ++ right.parts ++ [.binary left op right]
  | e => [e]

/-- The first of some expressions that does not fit. -/
def offending? (es : List Expr) : Option Expr := es.find? fun part => !part.fits

/-- The fault of an operation that does not fit although its operands do. A negation counts as a
subtraction. -/
def fault? : Expr → Option Fault
  | .negative _ => some (.integerOverflow .subtract)
  | .binary _ op right =>
    some (if op = .divide ∧ right.denoted? = some 0 then .divisionByZero else .integerOverflow op)
  | _ => none

end Expr

/-! ## Operations on integers of 64 bits -/

namespace Number

variable {op : Operator} {a b : Int64} {n : Int}

theorem fits_toInt (m : Int64) : Fits m.toInt := by
  have hlow := m.le_toInt
  have hhigh := m.toInt_lt
  exact ⟨by omega, by omega⟩

theorem checked_of_fits (op : Operator) (h : Fits n) :
    ∃ m : Int64, m.toInt = n ∧ checked op n = .ok (.integer m) := by
  obtain ⟨hlow, hhigh⟩ := h
  obtain ⟨m, hm⟩ := exists_toInt (n := n) (by rw [Int64.toInt_minValue]; omega)
    (by rw [Int64.toInt_maxValue]; omega)
  refine ⟨m, hm, ?_⟩
  rw [checked, integer?_eq_some.mpr hm]

theorem checked_of_not_fits (h : ¬ Fits n) : checked op n = .error (.integerOverflow op) := by
  have hnone : integer? n = none := by
    rw [integer?_eq_none, Int64.toInt_minValue, Int64.toInt_maxValue]
    unfold Fits at h
    omega
  rw [checked, hnone]

/-- Division by zero is the only operation that gives nothing. -/
theorem result?_divide_of_ne (hb : b ≠ 0) :
    Operator.divide.result? a.toInt b.toInt = some (a.toInt.tdiv b.toInt) :=
  if_neg fun hzero => hb (Int64.toInt_inj.mp hzero)

/-- An operation that gives an integer is carried out without bounds and then checked. -/
theorem integers_of_result? (h : op.result? a.toInt b.toInt = some n) :
    integers op a b = checked op n := by
  cases op with
  | add | subtract | multiply =>
    cases h
    rfl
  | divide =>
    by_cases hb : b = 0
    · subst hb
      cases h
    · rw [result?_divide_of_ne hb] at h
      cases h
      rw [integers, if_neg hb]
  | _ => cases h

theorem integers_of_fits (h : op.result? a.toInt b.toInt = some n) (hn : Fits n) :
    ∃ m : Int64, m.toInt = n ∧ integers op a b = .ok (.integer m) := by
  rw [integers_of_result? h]
  exact checked_of_fits op hn

theorem integers_of_not_fits (hop : op.isComparison = false)
    (h : ∀ n, op.result? a.toInt b.toInt = some n → ¬ Fits n) :
    integers op a b =
      .error (if op = .divide ∧ b.toInt = 0 then .divisionByZero else .integerOverflow op) := by
  cases hresult : op.result? a.toInt b.toInt with
  | some n =>
    have hdefined : ¬ (op = .divide ∧ b.toInt = 0) := by
      rintro ⟨rfl, hzero⟩
      rw [Operator.result?, if_pos hzero] at hresult
      cases hresult
    rw [integers_of_result? hresult, checked_of_not_fits (h n hresult), if_neg hdefined]
  | none =>
    have hzero : op = .divide ∧ b = 0 := by
      cases op with
      | divide =>
        refine ⟨rfl, Classical.byContradiction fun hb => ?_⟩
        rw [result?_divide_of_ne hb] at hresult
        cases hresult
      | add | subtract | multiply => cases hresult
      | _ => cases hop
    obtain ⟨rfl, rfl⟩ := hzero
    rfl

end Number

/-! ## Expressions -/

namespace Expr

variable {e left right operand part : Expr} {op : Operator} {fuel : Nat} {scope : Scope} {s : Store}
  {a b : Int64} {m n : Int}

theorem fits_eq_true : e.fits = true ↔ ∃ n, e.denoted? = some n ∧ Number.Fits n := by
  simp [fits, Option.any_eq_true]

theorem denoted?_negative (h : operand.denoted? = some n) :
    (Expr.negative operand).denoted? = some (-n) := by
  rw [denoted?, h]
  rfl

theorem denoted?_binary (op : Operator) (hleft : left.denoted? = some m)
    (hright : right.denoted? = some n) :
    (Expr.binary left op right).denoted? = op.result? m n := by
  rw [denoted?, hleft, hright]
  rfl

/-! ### One operation -/

theorem eval_negative_eq : (Expr.negative operand).eval (fuel + 1) scope =
    operand.eval fuel scope >>= fun v => Run.ofExcept (Number.negate v) := rfl

theorem eval_binary_eq (hop : op.isComparison = false) :
    (Expr.binary left op right).eval (fuel + 1) scope =
      left.eval fuel scope >>= fun v => right.eval fuel scope >>= fun w =>
        Value.arithmetic op v w := by
  cases op with
  | add | subtract | multiply | divide => rfl
  | _ => cases hop

theorem eval_negative (h : operand.eval fuel scope s = .done (.integer a) s) :
    (Expr.negative operand).eval (fuel + 1) scope s =
      Run.ofExcept (Number.checked .subtract (-a.toInt)) s := by
  rw [eval_negative_eq, Run.bind_apply, h]
  rfl

theorem eval_binary (hop : op.isComparison = false)
    (hleft : left.eval fuel scope s = .done (.integer a) s)
    (hright : right.eval fuel scope s = .done (.integer b) s) :
    (Expr.binary left op right).eval (fuel + 1) scope s =
      Run.ofExcept (Number.integers op a b) s := by
  rw [eval_binary_eq hop, Run.bind_apply, hleft]
  dsimp only
  rw [Run.bind_apply, hright]
  rfl

/-! ### All operations -/

theorem fuel_negative (h : (Expr.negative operand).parts.length ≤ fuel) :
    ∃ inner, fuel = inner + 1 ∧ operand.parts.length ≤ inner := by
  rw [parts, List.length_append, List.length_singleton] at h
  exact ⟨fuel - 1, by omega, by omega⟩

theorem fuel_binary (h : (Expr.binary left op right).parts.length ≤ fuel) :
    ∃ inner, fuel = inner + 1 ∧ left.parts.length ≤ inner ∧ right.parts.length ≤ inner := by
  rw [parts, List.length_append, List.length_append, List.length_singleton] at h
  exact ⟨fuel - 1, by omega, by omega, by omega⟩

/-- Where every part fits, the result is exact. -/
theorem eval_of_fits (h : e.IsArithmetic) (hfits : ∀ part ∈ e.parts, part.fits = true)
    (hfuel : e.parts.length ≤ fuel) (scope : Scope) (s : Store) :
    ∃ n : Int64, e.denoted? = some n.toInt ∧ e.eval fuel scope s = .done (.integer n) s := by
  induction h generalizing fuel with
  | integer n =>
    cases fuel with
    | zero => cases hfuel
    | succ fuel => exact ⟨n, rfl, rfl⟩
  | @negative operand _ ih =>
    rw [parts, List.forall_mem_append, List.forall_mem_singleton] at hfits
    obtain ⟨fuel, rfl, hinner⟩ := fuel_negative hfuel
    obtain ⟨a, hoperand, heval⟩ := ih hfits.1 hinner
    obtain ⟨n, hn, hfit⟩ := fits_eq_true.mp hfits.2
    have hdenoted := denoted?_negative hoperand
    obtain rfl : -a.toInt = n := Option.some.inj (hdenoted.symm.trans hn)
    obtain ⟨m, hm, hchecked⟩ := Number.checked_of_fits .subtract hfit
    refine ⟨m, by rw [hdenoted, hm], ?_⟩
    rw [eval_negative heval, hchecked]
    rfl
  | @binary left right op hop _ _ ihleft ihright =>
    rw [parts, List.forall_mem_append, List.forall_mem_append, List.forall_mem_singleton] at hfits
    obtain ⟨fuel, rfl, hfuelleft, hfuelright⟩ := fuel_binary hfuel
    obtain ⟨a, hleft, hevalleft⟩ := ihleft hfits.1.1 hfuelleft
    obtain ⟨b, hright, hevalright⟩ := ihright hfits.1.2 hfuelright
    obtain ⟨n, hn, hfit⟩ := fits_eq_true.mp hfits.2
    have hresult := (denoted?_binary op hleft hright).symm.trans hn
    obtain ⟨m, hm, hintegers⟩ := Number.integers_of_fits hresult hfit
    refine ⟨m, by rw [hn, hm], ?_⟩
    rw [eval_binary hop hevalleft hevalright, hintegers]
    rfl

theorem offending?_eq_none {es : List Expr} :
    offending? es = none ↔ ∀ part ∈ es, part.fits = true := by
  simp [offending?]

theorem offending?_singleton (h : offending? [e] = some part) : part = e ∧ e.fits = false := by
  cases hfits : e.fits with
  | true => simp [offending?, hfits] at h
  | false => simpa [offending?, hfits, eq_comm] using h

/-- Where some part does not fit, the first such part says how evaluation fails. -/
theorem eval_of_offending? (h : e.IsArithmetic) (hpart : offending? e.parts = some part)
    (hfuel : e.parts.length ≤ fuel) (scope : Scope) (s : Store) :
    ∃ fault, part.fault? = some fault ∧ e.eval fuel scope s = .failed fault s := by
  induction h generalizing fuel with
  | integer n =>
    have hfits : (Expr.integer n).fits = true := fits_eq_true.mpr ⟨_, rfl, Number.fits_toInt n⟩
    have hno := (offending?_singleton hpart).2
    rw [hfits] at hno
    cases hno
  | @negative operand hoperand ih =>
    obtain ⟨fuel, rfl, hinner⟩ := fuel_negative hfuel
    rw [parts, offending?, List.find?_append, Option.or_eq_some_iff] at hpart
    rcases hpart with hinside | ⟨hnone, hself⟩
    · obtain ⟨fault, hfault, heval⟩ := ih hinside hinner
      refine ⟨fault, hfault, ?_⟩
      rw [eval_negative_eq, Run.bind_apply, heval]
    · obtain ⟨a, hdenoted, heval⟩ :=
        eval_of_fits hoperand (offending?_eq_none.mp hnone) hinner scope s
      obtain ⟨rfl, hno⟩ := offending?_singleton hself
      have hoverflow : ¬ Number.Fits (-a.toInt) := fun hfit =>
        Bool.eq_false_iff.mp hno (fits_eq_true.mpr ⟨_, denoted?_negative hdenoted, hfit⟩)
      refine ⟨_, rfl, ?_⟩
      rw [eval_negative heval, Number.checked_of_not_fits hoverflow]
      rfl
  | @binary left right op hop hleft hright ihleft ihright =>
    obtain ⟨fuel, rfl, hfuelleft, hfuelright⟩ := fuel_binary hfuel
    rw [parts, offending?, List.find?_append, List.find?_append, Option.or_eq_some_iff,
      Option.or_eq_some_iff, Option.or_eq_none_iff] at hpart
    -- All that stands before the first part that does not fit evaluates to its value.
    rcases hpart with (hinleft | ⟨hnoneleft, hinright⟩) | ⟨⟨hnoneleft, hnoneright⟩, hself⟩
    · obtain ⟨fault, hfault, heval⟩ := ihleft hinleft hfuelleft
      refine ⟨fault, hfault, ?_⟩
      rw [eval_binary_eq hop, Run.bind_apply, heval]
    · obtain ⟨a, -, hevalleft⟩ :=
        eval_of_fits hleft (offending?_eq_none.mp hnoneleft) hfuelleft scope s
      obtain ⟨fault, hfault, heval⟩ := ihright hinright hfuelright
      refine ⟨fault, hfault, ?_⟩
      rw [eval_binary_eq hop, Run.bind_apply, hevalleft]
      dsimp only
      rw [Run.bind_apply, heval]
    · obtain ⟨a, hdenotedleft, hevalleft⟩ :=
        eval_of_fits hleft (offending?_eq_none.mp hnoneleft) hfuelleft scope s
      obtain ⟨b, hdenotedright, hevalright⟩ :=
        eval_of_fits hright (offending?_eq_none.mp hnoneright) hfuelright scope s
      obtain ⟨rfl, hno⟩ := offending?_singleton hself
      have hdenoted := denoted?_binary op hdenotedleft hdenotedright
      have hfails : ∀ n, op.result? a.toInt b.toInt = some n → ¬ Number.Fits n := fun n hn hfit =>
        Bool.eq_false_iff.mp hno (fits_eq_true.mpr ⟨n, hdenoted.trans hn, hfit⟩)
      refine ⟨if op = .divide ∧ b.toInt = 0 then .divisionByZero else .integerOverflow op, ?_, ?_⟩
      · simp only [fault?, hdenotedright, Option.some.injEq]
      · rw [eval_binary hop hevalleft hevalright, Number.integers_of_not_fits hop hfails]
        rfl

/-- If all parts of an expression fit, it evaluates to what it stands for. Otherwise it fails for
the first part that does not fit. The store stays as it is. -/
theorem eval_arithmetic (h : e.IsArithmetic) (hfuel : e.parts.length ≤ fuel) (scope : Scope)
    (s : Store) :
    ((∀ part ∈ e.parts, part.fits = true) →
      ∃ n : Int64, e.denoted? = some n.toInt ∧ e.eval fuel scope s = .done (.integer n) s) ∧
    (¬ (∀ part ∈ e.parts, part.fits = true) →
      ∃ part fault, offending? e.parts = some part ∧ part.fault? = some fault ∧
        e.eval fuel scope s = .failed fault s) := by
  refine ⟨fun hfits => eval_of_fits h hfits hfuel scope s, fun hfits => ?_⟩
  rw [← offending?_eq_none] at hfits
  obtain ⟨part, hpart⟩ := Option.ne_none_iff_exists'.mp hfits
  obtain ⟨fault, hfault, heval⟩ := eval_of_offending? h hpart hfuel scope s
  exact ⟨part, fault, hpart, hfault, heval⟩

/-- Two quotients that are refused, of which the one on the left is too large. -/
def quotients : Expr :=
  .binary (.binary (.integer Int64.minValue) .divide (.negative (.integer 1))) .add
    (.binary (.integer 7) .divide (.binary (.integer 2) .subtract (.integer 2)))

theorem isArithmetic_quotients : quotients.IsArithmetic :=
  .binary rfl (.binary rfl (.integer _) (.negative (.integer _)))
    (.binary rfl (.integer _) (.binary rfl (.integer _) (.integer _)))

theorem eval_arithmetic_quotients :
    quotients.eval 10 (Machine.new [] none).globals (Machine.new [] none).store =
      .failed (.integerOverflow .divide) (Machine.new [] none).store := by
  have hfuel : quotients.parts.length ≤ 10 := by decide
  obtain ⟨part, fault, hpart, hfault, heval⟩ :=
    (eval_arithmetic isArithmetic_quotients hfuel (Machine.new [] none).globals
      (Machine.new [] none).store).2 (by decide)
  have hfirst : offending? quotients.parts =
      some (.binary (.integer Int64.minValue) .divide (.negative (.integer 1))) := rfl
  cases hpart.symm.trans hfirst
  cases hfault
  exact heval

end Expr

end Offside
