import Offside.Machine
import Offside.Proofs.Bindings.Refusals
import Offside.Proofs.Grammar.Exactness
import Offside.Proofs.Syntax.StatementReading
import Offside.Proofs.Value.Rebuilding

/-!
# Data are printed as programs

The text of data, with strings in quotes, is read as an expression that makes a copy of them. A
program that gives this text as the value of a name therefore binds a copy.
-/

namespace Offside

open Grammar
open Grammar.Terminal (word)
open Place (Reads inLine leveling newLine)

instance : Inhabited Expr := ⟨.null⟩

namespace Value

/-! ## The text of scalars -/

section Scalars

variable {s : Store}

theorem quoted_writes {text : String} (h : '"' ∉ text.toList ∨ '\'' ∉ text.toList) :
    Writes (quoted text).toList (.postfixed (.string text)) := by
  by_cases hsingle : '\'' ∈ text.toList
  · have hdouble : '"' ∉ text.toList := h.resolve_right (not_not_intro hsingle)
    simpa [quoted, hsingle] using Writes.string (.inl rfl) hdouble
  · simpa [quoted, hsingle] using Writes.string (.inr rfl) hsingle

/-- A negative integer is read as the negation of its absolute value. -/
theorem integer_literal {n : Int64} (h : Int64.minValue < n) :
    ∃ e, Writes (toString n.toInt).toList (.expression e) ∧ e.Rebuilds s (.integer n) := by
  by_cases hn : 0 ≤ n.toInt
  · exact ⟨.integer n, (Expr.Printable.integer hn).writes.expression, Expr.integer_rebuilds n⟩
  · have hmin := Int64.lt_iff_toInt_lt.mp h
    have hmax : Int64.maxValue.toInt = -Int64.minValue.toInt - 1 := rfl
    obtain ⟨m, hm⟩ := Number.exists_toInt (n := -n.toInt) (by omega) (by omega)
    refine ⟨.negative (.integer m), ?_, Expr.negative_rebuilds (by omega)⟩
    obtain ⟨hopens, u, hu, hspells⟩ := (Expr.Printable.integer (n := m) (by omega)).writes
    have htext : (toString n.toInt).toList = '-' :: integerSource m := by
      obtain ⟨k, hk⟩ := Int.eq_negSucc_of_lt_zero (Int.not_le.mp hn)
      have hmk : m.toInt = (k + 1 : Nat) := by omega
      unfold integerSource
      rw [hk, hmk]
      show ("-" ++ Nat.repr (k + 1)).toList = '-' :: (Nat.repr (k + 1)).toList
      rw [String.toList_append]
      rfl
    rw [htext]
    exact ⟨⟨'-', _, rfl, rfl⟩, _, derives_expression (additive_of_unary (.negative (.unsigned hu))),
      hspells.minus⟩

end Scalars

/-! ## The text of containers -/

section Containers

variable {s : Store} {above : List Container} {quote : Bool} {v : Value} {text : String}

theorem toList_containerText_list (a : ListId) (text : Value → String) :
    (s.containerText (.list a) text).toList =
      '[' :: commaSeparated ((s.list a).toList.map fun v => (text v).toList) ++ [']'] := by
  simp [Store.containerText, Container.enclose, Store.parts, commaSeparated, Function.comp_def]

theorem toList_containerText_dictionary (b : DictionaryId) (text : Value → String) :
    (s.containerText (.dictionary b) text).toList =
      '\x7b' :: commaSeparated ((s.dictionary b).entries.toList.map fun e =>
        (e.1.toValue.scalarText true).toList ++ ':' :: ' ' :: (text e.2).toList) ++ ['\x7d'] := by
  simp [Store.containerText, Container.enclose, Store.parts, commaSeparated, Function.comp_def]

theorem Written.eq_scalarText (h : Written s Never above quote v text)
    (hscalar : ∀ c : Container, v ≠ c.toValue) : text = v.scalarText quote :=
  h.unique (.scalar hscalar)

theorem Written.parts {c : Container} (h : Written s Never above quote c.toValue text) :
    ∃ part, text = s.containerText c part ∧
      ∀ p ∈ s.parts c, Written s Never (c :: above) true p.2 (part p.2) := by
  generalize hv : c.toValue = v at h
  cases h with
  | scalar hscalar => exact absurd hv.symm (hscalar c)
  | short hcut => exact hcut.elim
  | full _ hparts =>
    obtain rfl := Container.toValue_injective hv
    exact ⟨_, rfl, hparts⟩

/-- The text of data is read as an expression that makes a copy of them. -/
theorem IsData.literal (h : IsData s v) (hwritten : Written s Never above true v text) :
    ∃ e, Writes text.toList (.expression e) ∧ e.Rebuilds s v := by
  induction h generalizing above text with
  | null =>
    obtain rfl := hwritten.eq_scalarText Key.null.toValue_ne
    exact ⟨.null, Expr.Printable.null.writes.expression, Expr.null_rebuilds⟩
  | boolean b =>
    obtain rfl := hwritten.eq_scalarText (Key.boolean b).toValue_ne
    have hwrites := (Expr.Printable.boolean (b := b)).writes.expression
    refine ⟨.boolean b, ?_, Expr.boolean_rebuilds b⟩
    cases b <;> exact hwrites
  | @integer n hn =>
    obtain rfl := hwritten.eq_scalarText (Key.integer n).toValue_ne
    exact integer_literal hn
  | @string content hquote =>
    obtain rfl := hwritten.eq_scalarText (Key.string content).toValue_ne
    exact ⟨.string content, (quoted_writes hquote).expression, Expr.string_rebuilds content⟩
  | @list a ha _ ih =>
    obtain ⟨part, rfl, hparts⟩ := Written.parts (c := .list a) hwritten
    have hitems : ∀ v ∈ (s.list a).toList,
        ∃ e, Writes (part v).toList (.expression e) ∧ e.Rebuilds s v := fun v hv =>
      ih v hv (hparts ("", v) (List.mem_map_of_mem hv))
    choose! item hwrites hrebuilds using hitems
    refine ⟨.list ((s.list a).toList.map item), ?_, Expr.list_rebuilds ha ?_⟩
    · rw [toList_containerText_list]
      refine (Writes.list ?_).expression
      rw [List.map_map]
      exact writes_map hwrites
    · rw [List.forall₂_map_right_iff, List.forall₂_same]
      exact hrebuilds
  | @dictionary b hb _ _ ihkeys ihvalues =>
    obtain ⟨part, rfl, hparts⟩ := Written.parts (c := .dictionary b) hwritten
    -- a key is no part of the dictionary, and is written as a scalar
    have hkeys : ∀ e ∈ (s.dictionary b).entries.toList,
        ∃ e', Writes (e.1.toValue.scalarText true).toList (.expression e') ∧
          e'.Rebuilds s e.1.toValue := by
      intro e he
      have hkey : Written s Never [] true e.1.toValue _ := .scalar e.1.toValue_ne
      exact ihkeys e he hkey
    have hvalues : ∀ e ∈ (s.dictionary b).entries.toList,
        ∃ e', Writes (part e.2).toList (.expression e') ∧ e'.Rebuilds s e.2 := fun e he =>
      ihvalues e he (hparts (_, e.2) (List.mem_map_of_mem he))
    choose! key hkeyWrites hkeyRebuilds using hkeys
    choose! value hvalueWrites hvalueRebuilds using hvalues
    refine ⟨.dictionary ((s.dictionary b).entries.toList.map fun e => (key e, value e)), ?_,
      Expr.dictionary_rebuilds hb ?_⟩
    · rw [toList_containerText_dictionary]
      refine (Writes.dictionary ?_).expression
      rw [List.map_map]
      exact writes_map fun e he => (hkeyWrites e he).entry (hvalueWrites e he)
    · rw [List.forall₂_map_right_iff, List.forall₂_same]
      exact fun e he => ⟨hkeyRebuilds e he, hvalueRebuilds e he⟩

end Containers

end Value

/-! ## A program of one line -/

section Initialization

variable {n text : String} {e : Expr}

/-- A declaration with a value on a line without an end. -/
theorem Program.ofTokens_initialization (hn : IsName n) (h : Writes text.toList (.expression e)) :
    ∃ ts, tokens ("var " ++ n ++ " = " ++ text) = .ok ts ∧
      Program.ofTokens ts = .ok [.declare n false, .assign (.name n) e] := by
  obtain ⟨hopens, u, hu, hspells⟩ := h
  have hline := (declaration_spells hn false).append (Spells.assign_blank hspells hopens)
    fun rest _ => separates_of_head rfl (by decide) _
  have hreads : Reads (newLine 0 ("var " ++ n ++ " = " ++ text).toList)
      (bindingTerminals n false ++ word .assign :: u) (inLine 0 [] []) := by
    have hcontent := reads_content hline ((opens_declarationSource n false).append _)
      (Nat.zero_le 1) .nil
    simpa [declarationSource, leveling] using hcontent
  obtain ⟨ts, htokens, hterminals⟩ := Place.tokens_of_reads hreads
  refine ⟨ts, by rwa [String.ofList_toList] at htokens, ofTokens_of_derives ?_⟩
  have hitems : Derives (.items [.declare n false, .assign (.name n) e])
      (bindingTerminals n false ++ word .assign :: u ++ [word .newline] ++ []) :=
    .itemsStatement (.initialization hu) .itemsNil
  rw [hterminals]
  simpa using Derives.program hitems

variable {scope : Scope} {s s' t : Store} {w : Value} {k : Nat}

/-- A store whose frames are those of a changed store is a changed store itself. -/
theorem Store.exists_modifyFrame {id : FrameId} {f : Frame → Frame}
    (h : t.frames = (s.modifyFrame id f).frames) :
    ∃ base : Store, base.frames = s.frames ∧ t = base.modifyFrame id f := by
  refine ⟨{ t with frames := s.frames }, rfl, ?_⟩
  cases t
  simpa [Store.modifyFrame] using h

open Run

theorem Stmt.execTopLevel_of_exec {fuel : Nat} {st : Stmt}
    (h : st.exec fuel scope s = .done .normal t) : st.execTopLevel fuel scope s = .done () t :=
  bind_eq_done.mpr ⟨.normal, t, h, rfl⟩

theorem Stmt.exec_declare {fuel : Nat} (h : scope.declare n .immutableVariable s = .done () t) :
    (Stmt.declare n false).exec (fuel + 1) scope s = .done .normal t :=
  bind_eq_done.mpr ⟨(), t, h, rfl⟩

theorem Stmt.exec_assign {fuel : Nat} {b : Binding} (hlookup : scope.lookup n s = .ok b)
    (heval : e.eval fuel scope s = .done w s') (hassign : scope.assign n w s' = .done () t) :
    (Stmt.assign (.name n) e).exec (fuel + 1) scope s = .done .normal t := by
  have hread : (Run.readExcept (scope.lookup n)) s = .done b s := by
    unfold Run.readExcept
    rw [hlookup]
  exact bind_eq_done.mpr ⟨(), t, bind_eq_done.mpr ⟨b, s, hread,
    bind_eq_done.mpr ⟨w, s', heval, hassign⟩⟩, rfl⟩

/-- The name has the value once the program is over. -/
theorem Program.run_initialization (hframe : s.HasFrame scope.innermost)
    (hdeclare : scope.declare n .immutableVariable s = .done () s')
    (heval : ∀ fuel, k ≤ fuel → e.eval fuel scope s' = .done w t) (hframes : t.frames = s'.frames)
    (hvoid : w.isVoid = false) :
    ∃ t', t.KeepsContainers t' ∧ scope.get n t' = .ok w ∧ ∀ fuel, k + 1 ≤ fuel →
      Program.run fuel scope [.declare n false, .assign (.name n) e] s = .finished t' := by
  obtain ⟨hn, rfl⟩ := Scope.declare_eq_done hdeclare
  obtain ⟨base, hbase, rfl⟩ := Store.exists_modifyFrame hframes
  have hframe' : base.HasFrame scope.innermost := by
    unfold Store.HasFrame
    rwa [hbase]
  have hn' : n ∉ base.names scope.innermost := by
    unfold Store.names Store.frame
    rwa [hbase]
  refine ⟨base.modifyFrame scope.innermost fun frame => (n, ⟨.immutableVariable, some w⟩) :: frame,
    .of_eq rfl rfl, Scope.get_cons hframe', fun fuel hfuel => ?_⟩
  obtain ⟨fuel, rfl⟩ := Nat.exists_eq_add_of_le' (Nat.le_of_add_left_le hfuel)
  have hfirst : (Stmt.declare n false).execTopLevel (fuel + 1) scope s = _ :=
    Stmt.execTopLevel_of_exec (Stmt.exec_declare hdeclare)
  have hsecond := Stmt.execTopLevel_of_exec (Stmt.exec_assign (Scope.lookup_cons hframe _)
    (heval fuel (Nat.le_of_succ_le_succ hfuel)) (Scope.assign_cons_done hframe' hn' hvoid))
  unfold Program.run
  rw [hfirst]
  unfold Program.run
  dsimp only
  rw [hsecond]
  rfl

end Initialization

/-! ## Data in a new machine -/

namespace Machine

/-- A new machine whose store also has the containers of another store. -/
def beside (s : Store) (room : Option Nat) : Machine :=
  let m := Machine.new standard room
  { m with store := { m.store with lists := s.lists, dictionaries := s.dictionaries } }

/-- The program finishes with this store, in which the name then has the value. -/
def Binds (m : Machine) (p : Program) (n : String) (t : Store) (w : Value) : Prop :=
  (∃ k, ∀ fuel, k ≤ fuel → p.run fuel m.globals m.store = .finished t) ∧
    Machine.get { m with store := t } n = .ok w

theorem beside_binds {s : Store} {v : Value} {e : Expr} (he : e.Rebuilds s v) (s₀ : Store)
    (room : Option Nat) :
    ∃ t w, (beside s₀ room).Binds [.declare "x" false, .assign (.name "x") e] "x" t w ∧
      s₀.KeepsContainers t ∧ Value.IsCopy s t v w := by
  have hframe : (beside s₀ room).store.HasFrame (beside s₀ room).globals.innermost :=
    Nat.zero_lt_one
  have hn : "x" ∉ (beside s₀ room).store.names (beside s₀ room).globals.innermost := by
    show "x" ∉ Frame.names (builtins standard)
    decide
  have hdeclare : (beside s₀ room).globals.declare "x" .immutableVariable (beside s₀ room).store =
      _ := Scope.declare_new hn
  obtain ⟨w, t, hgains, hcopy, k, heval⟩ := he (beside s₀ room).globals _
  obtain ⟨t', hkeeps, hget, hrun⟩ :=
    Program.run_initialization hframe hdeclare heval hgains.frames hcopy.isVoid_eq_false
  refine ⟨t', w, ⟨⟨k + 1, hrun⟩, hget⟩, .trans ?_ (hgains.toKeepsContainers.trans hkeeps),
    hcopy.mono (.refl s) hkeeps⟩
  exact .of_eq rfl rfl

end Machine

namespace Value

/-- Data are printed as a program. The text, as the value of a name, is read, and on a new machine
the name gets a copy of the data. Beside the data the copy equals them. -/
theorem repr_rereads {s : Store} {v : Value} (h : v.IsData s) (room : Option Nat) :
    ∃ ts p, tokens ("var x = " ++ v.repr s) = .ok ts ∧ Program.ofTokens ts = .ok p ∧
      (∃ t w, (Machine.new Machine.standard room).Binds p "x" t w ∧ IsCopy s t v w) ∧
      ∃ t w, (Machine.beside s room).Binds p "x" t w ∧ s.KeepsContainers t ∧ IsCopy s t v w ∧
        equals t w v = true := by
  obtain ⟨e, hwrites, hrebuilds⟩ := h.literal ((written_never_iff h.cycleFree).mpr rfl)
  have hx : IsName "x" := rfl
  obtain ⟨ts, htokens, hp⟩ := Program.ofTokens_initialization hx hwrites
  refine ⟨ts, _, htokens, hp, ?_, ?_⟩
  · obtain ⟨t, w, hbinds, -, hcopy⟩ :=
      Machine.beside_binds hrebuilds (Machine.new Machine.standard room).store room
    exact ⟨t, w, hbinds, hcopy⟩
  · obtain ⟨t, w, hbinds, hkeeps, hcopy⟩ := Machine.beside_binds hrebuilds s room
    exact ⟨t, w, hbinds, hkeeps, hcopy, (hcopy.mono hkeeps (.refl t)).equals⟩

/-- A dictionary that holds a list, which holds one list twice. -/
def nestedStore : Store where
  frames := #[]
  lists := #[#[.integer (-7), .string "it's", .list ⟨1⟩, .list ⟨1⟩], #[]]
  dictionaries := #[.ofList [(.string "k", .list ⟨0⟩), (.null, .boolean true)]]
  identities := 0
  output := ⟨"", none⟩

theorem repr_rereads_nested :
    repr nestedStore (.dictionary ⟨0⟩) = "\x7b'k': [-7, \"it's\", [], []], null: true\x7d" ∧
      IsData nestedStore (.dictionary ⟨0⟩) ∧
      ∃ ts p, tokens ("var x = " ++ repr nestedStore (.dictionary ⟨0⟩)) = .ok ts ∧
        Program.ofTokens ts = .ok p ∧
        (∃ t w, (Machine.new Machine.standard none).Binds p "x" t w ∧
          IsCopy nestedStore t (.dictionary ⟨0⟩) w) ∧
        ∃ t w, (Machine.beside nestedStore none).Binds p "x" t w ∧ nestedStore.KeepsContainers t ∧
          IsCopy nestedStore t (.dictionary ⟨0⟩) w ∧ equals t w (.dictionary ⟨0⟩) = true := by
  have hempty : IsData nestedStore (.list ⟨1⟩) := .list (by decide) nofun
  have hlist : IsData nestedStore (.list ⟨0⟩) := by
    refine .list (by decide) ?_
    show ∀ v ∈ [Value.integer (-7), .string "it's", .list ⟨1⟩, .list ⟨1⟩], IsData nestedStore v
    simpa using ⟨.integer (by decide), .string (by decide), hempty⟩
  have hdata : IsData nestedStore (.dictionary ⟨0⟩) := by
    refine .dictionary (by decide) ?_ ?_
    · show ∀ e ∈ [(Key.string "k", Value.list ⟨0⟩), (.null, .boolean true)],
        IsData nestedStore e.1.toValue
      simpa using ⟨.string (by decide), .null⟩
    · show ∀ e ∈ [(Key.string "k", Value.list ⟨0⟩), (.null, .boolean true)], IsData nestedStore e.2
      simpa using ⟨hlist, .boolean true⟩
  exact ⟨by decide +kernel, hdata, repr_rereads hdata none⟩

end Value

end Offside
