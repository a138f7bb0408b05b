import Offside.Proofs.Grammar.StatementCompleteness

/-!
# Line ends that add nothing

Where a line ends, one more line end changes nothing in what is derived, but that the indent of a
block stands right behind the line end of its head. This is one case of a change right behind a line
end that items and members bear.
-/

namespace Offside.Grammar

open Terminal (word name)

/-! ## Phrases within a line -/

/-- The phrases that expressions and the heads of blocks are made of. -/
def Phrase.isInline : Phrase → Prop
  | .expression _ | .comparisonLink _ | .additive _ | .sumLink _ | .multiplicative _ => True
  | .productLink _ | .unary _ | .postfixed _ | .suffix _ | .primary _ => True
  | .entry _ | .argument _ | .parameter _ => True
  | _ => False

/-- Inline phrases and rows of them. -/
def Phrase.StaysInLine : Phrase → Prop
  | .star phrases | .separated phrases => ∀ p ∈ phrases, p.isInline
  | p => p.isInline

theorem Phrase.isInline.staysInLine {p : Phrase} (h : p.isInline) : p.StaysInLine := by
  cases p <;> first | exact h | exact h.elim

/-- Whether terminals of a kind stand for line ends or indentation. -/
def isLayout : TokenKind → Bool
  | .newline | .indent | .dedent => true
  | _ => false

def NoLayout (u : List Terminal) : Prop := ∀ a ∈ u, isLayout a.kind = false

@[simp] theorem noLayout_nil : NoLayout [] := List.forall_mem_nil _

@[simp] theorem noLayout_cons {a : Terminal} {u : List Terminal} :
    NoLayout (a :: u) ↔ isLayout a.kind = false ∧ NoLayout u := List.forall_mem_cons

@[simp] theorem noLayout_append {u v : List Terminal} :
    NoLayout (u ++ v) ↔ NoLayout u ∧ NoLayout v := List.forall_mem_append

theorem isLayout_operatorKind (op : Operator) : isLayout (operatorKind op) = false := by
  cases op <;> rfl

theorem derives_noLayout {p : Phrase} {u : List Terminal} (h : Derives p u) (hp : p.StaysInLine) :
    NoLayout u := by
  induction h with
  | starNil | separatedNil => exact noLayout_nil
  | starCons _ _ ih ihs =>
    have := ih (hp _ List.mem_cons_self).staysInLine
    have := ihs fun p hmem => hp p (List.mem_cons_of_mem _ hmem)
    simp [*]
  | separatedOne _ ih => exact ih (hp _ List.mem_cons_self).staysInLine
  | separatedCons _ _ ih ihs =>
    have := ih (hp _ List.mem_cons_self).staysInLine
    have := ihs fun p hmem => hp p (List.mem_cons_of_mem _ hmem)
    simp [isLayout, *]
  | nameExpression | integer | float | string | true | false | null | member | parameter =>
    simp [isLayout, name]
  | list _ ih | dictionary _ ih =>
    have := ih (List.forall_mem_map.mpr fun _ _ => trivial)
    simp [isLayout, *]
  | call _ ih =>
    have := ih (List.forall_mem_append.mpr
      ⟨List.forall_mem_map.mpr fun _ _ => trivial, List.forall_mem_map.mpr fun _ _ => trivial⟩)
    simp [isLayout, *]
  | parenthesized _ ih | index _ ih | positional _ ih | keyword _ ih | not _ ih | negative _ ih
  | unsigned _ ih =>
    have := ih trivial
    simp [isLayout, name, *]
  | entry _ _ ih ih' =>
    have := ih trivial
    have := ih' trivial
    simp [isLayout, *]
  | productLink _ _ ih | sumLink _ _ ih | comparisonLink _ _ ih =>
    have := ih trivial
    simp [isLayout_operatorKind, *]
  | postfixed _ _ ih ihs | multiplicative _ _ ih ihs | additive _ _ ih ihs
  | expression _ _ ih ihs =>
    have := ih trivial
    have := ihs (List.forall_mem_map.mpr fun _ _ => trivial)
    simp [*]
  | _ => exact hp.elim

theorem noLayout_binding (n : String) (isMutable : Bool) :
    NoLayout (bindingTerminals n isMutable) := by
  cases isMutable <;> simp [bindingTerminals, isLayout, name]

theorem noLayout_loop (binder : LoopVariable) : NoLayout (loopTerminals binder) := by
  cases binder with
  | name n => simp [loopTerminals, isLayout, name]
  | declared n isMutable => exact noLayout_binding n isMutable

theorem NoLayout.getLast?_ne {u : List Terminal} (h : NoLayout u) :
    u.getLast? ≠ some (word .newline) := by
  intro hlast
  have := h _ (List.mem_of_getLast? hlast)
  cases this

/-! ## Phrases that end with a block -/

variable {u : List Terminal}

/-- Blocks with what stands before them. -/
def Phrase.EndsWithBlock : Phrase → Prop
  | .block _ | .headedBlock _ | .functionDefinition _ | .elseIf _ => True
  | _ => False

theorem getLast?_eq_dedent {p : Phrase} (h : Derives p u) (hp : p.EndsWithBlock) :
    u.getLast? = some (word .dedent) := by
  induction h with
  | block => exact List.getLast?_concat
  | headedBlock _ ih | functionDefinition _ _ _ ih | elseIf _ _ _ ih =>
    simp [List.getLast?_cons, ih trivial]
  | _ => exact hp.elim

theorem getLast?_ne_newline {p : Phrase} (h : Derives p u) (hp : p.EndsWithBlock) :
    u.getLast? ≠ some (word .newline) := by
  rw [getLast?_eq_dedent h hp]
  decide

theorem getLast?_branches {branches : List ElseIf}
    (h : Derives (.star (branches.map .elseIf)) u) : u.getLast? ≠ some (word .newline) := by
  induction branches generalizing u with
  | nil =>
    cases h
    nofun
  | cons branch branches ih =>
    cases h with
    | starCons hbranch hrest =>
      intro hlast
      rw [List.getLast?_append, Option.or_eq_some_iff] at hlast
      obtain hlast | ⟨-, hlast⟩ := hlast
      · exact ih hrest hlast
      · exact getLast?_ne_newline hbranch trivial hlast

/-! ## Line ends at the end -/

theorem items_line {b : Block} (h : Derives (.items b) u) :
    Derives (.items b) (u ++ [word .newline]) := by
  induction h using Derives.itemsInduction with
  | nil => exact .itemsLine .itemsNil
  | line _ _ _ ih => exact .itemsLine ih
  | statement _ _ _ _ hs _ ih =>
    rw [List.append_assoc]
    exact .itemsStatement hs ih

theorem members_line {ms : List (Option FunctionDef)} (h : Derives (.members ms) u) :
    Derives (.members ms) (u ++ [word .newline]) := by
  induction h using Derives.membersInduction with
  | nil => exact .membersLine .membersNil
  | line _ _ _ ih => exact .membersLine ih
  | pass _ _ _ ih => exact .membersPass ih
  | method _ _ _ _ hf _ ih =>
    rw [List.append_assoc]
    exact .membersMethod hf ih

/-! ## Changes behind a line end -/

/-- A change of the terminals right behind a line end, which items and members bear. It looks at the
first of these terminals, and comes before the last of them at most as a line end. -/
structure BehindLine (change : List Terminal → List Terminal → Prop) : Prop where
  ne_nil {w : List Terminal} : ¬ change [] w
  ne_indent {u w : List Terminal} : ¬ change (word .indent :: u) w
  append {a : Terminal} {u v w : List Terminal} :
    change (a :: u ++ v) w → ∃ u', w = u' ++ v ∧ change (a :: u) u'
  last {a : Terminal} {w : List Terminal} :
    a ≠ word .newline → change [a] w → w = [word .newline, a]
  items {b : Block} {u w : List Terminal} :
    change u w → Derives (.items b) u → Derives (.items b) w
  members {ms : List (Option FunctionDef)} {u w : List Terminal} :
    change u w → Derives (.members ms) u → Derives (.members ms) w

/-- The other terminals have such a change behind one of their line ends. -/
inductive Reline (change : List Terminal → List Terminal → Prop) :
    List Terminal → List Terminal → Prop where
  | here {u w : List Terminal} :
    change u w → Reline change (word .newline :: u) (word .newline :: w)
  | there {a : Terminal} {u w : List Terminal} :
    Reline change u w → Reline change (a :: u) (a :: w)

variable {change : List Terminal → List Terminal → Prop} {a : Terminal} {v w : List Terminal}

theorem not_reline_noLayout (h : NoLayout u) : ¬ Reline change u w := by
  intro hw
  induction hw with
  | here => simp [isLayout] at h
  | there _ ih => exact ih (noLayout_cons.mp h).2

namespace Reline

/-- The change is made in one of two parts, or between them. -/
theorem append (hchange : BehindLine change) (h : Reline change (u ++ v) w) :
    (∃ u', w = u' ++ v ∧ Reline change u u') ∨ (∃ v', w = u ++ v' ∧ Reline change v v') ∨
      u.getLast? = some (word .newline) ∧ ∃ v', w = u ++ v' ∧ change v v' := by
  induction u generalizing w with
  | nil => exact .inr (.inl ⟨w, rfl, h⟩)
  | cons a u ih =>
    rw [List.cons_append] at h
    cases h with
    | here h =>
      cases u with
      | nil => exact .inr (.inr ⟨rfl, _, rfl, h⟩)
      | cons b u =>
        obtain ⟨u', rfl, hu⟩ := hchange.append h
        exact .inl ⟨_, rfl, .here hu⟩
    | there h =>
      obtain ⟨u', rfl, hu⟩ | ⟨v', rfl, hv⟩ | ⟨hlast, v', rfl, hv⟩ := ih h
      · exact .inl ⟨a :: u', rfl, .there hu⟩
      · exact .inr (.inl ⟨v', rfl, hv⟩)
      · exact .inr (.inr ⟨by simp [List.getLast?_cons, hlast], v', rfl, hv⟩)

theorem parts (hchange : BehindLine change) (h : Reline change (u ++ v) w)
    (hu : u.getLast? ≠ some (word .newline)) :
    (∃ u', w = u' ++ v ∧ Reline change u u') ∨ ∃ v', w = u ++ v' ∧ Reline change v v' := by
  obtain h | h | ⟨hlast, -⟩ := h.append hchange
  · exact .inl h
  · exact .inr h
  · exact absurd hlast hu

/-- The change is made before the last terminal. -/
theorem concat (hchange : BehindLine change) (h : Reline change (u ++ [a]) w)
    (ha : a ≠ word .newline) :
    ∃ u', w = u' ++ [a] ∧ (Reline change u u' ∨ u' = u ++ [word .newline]) := by
  obtain ⟨u', rfl, hu⟩ | ⟨v', -, hv⟩ | ⟨-, v', rfl, hv⟩ := h.append hchange
  · exact ⟨u', rfl, .inl hu⟩
  · obtain _ | ⟨⟨⟩⟩ := hv
    exact absurd rfl ha
  · rw [hchange.last ha hv]
    exact ⟨_, List.append_cons .., .inr rfl⟩

theorem behindInline (hchange : BehindLine change) (h : Reline change (u ++ v) w)
    (hu : NoLayout u) : ∃ v', w = u ++ v' ∧ Reline change v v' := by
  obtain ⟨u', -, hline⟩ | h := h.parts hchange hu.getLast?_ne
  · exact absurd hline (not_reline_noLayout hu)
  · exact h

end Reline

/-- The end of a line is the end of the terminals. -/
theorem not_reline_line (hchange : BehindLine change) (h : NoLayout u) :
    ¬ Reline change (u ++ [word .newline]) w := by
  intro hw
  obtain ⟨v', -, hline⟩ := hw.behindInline hchange h
  cases hline with
  | here h => exact hchange.ne_nil h
  | there h => cases h

/-! ## Derivations with such a change -/

/-- The phrases that go over lines. -/
def Phrase.TakesLines : Phrase → Prop
  | .block _ | .headedBlock _ | .functionDefinition _ | .elseIf _ | .otherwise _ => True
  | .members _ | .items _ | .statement _ | .program _ => True
  | .star phrases => ∃ branches : List ElseIf, phrases = branches.map .elseIf
  | _ => False

theorem Phrase.TakesLines.uncons {p : Phrase} {phrases : List Phrase}
    (h : (Phrase.star (p :: phrases)).TakesLines) :
    ∃ branch, p = .elseIf branch ∧ (Phrase.star phrases).TakesLines := by
  obtain ⟨branches, hbranches⟩ := h
  cases branches with
  | nil => cases hbranches
  | cons branch branches =>
    obtain ⟨rfl, rfl⟩ := List.cons.inj hbranches
    exact ⟨branch, rfl, branches, rfl⟩

theorem derives_reline (hchange : BehindLine change) {p : Phrase} (h : Derives p u)
    (hp : p.TakesLines) (hw : Reline change u w) : Derives p w := by
  induction h generalizing w with
  | starNil | itemsNil | membersNil | otherwiseNone => cases hw
  | starCons hd hds ih ihs =>
    obtain ⟨branch, rfl, hrest⟩ := hp.uncons
    obtain ⟨u', rfl, hu⟩ | ⟨v', rfl, hv⟩ := hw.parts hchange (getLast?_ne_newline hd trivial)
    · exact .starCons (ih trivial hu) hds
    · exact .starCons hd (ihs hrest hv)
  | itemsLine hss ih =>
    cases hw with
    | here hw => exact .itemsLine (hchange.items hw hss)
    | there hw => exact .itemsLine (ih trivial hw)
  | itemsStatement hs hss ih ihs =>
    obtain ⟨u', rfl, hu⟩ | ⟨v', rfl, hv⟩ | ⟨-, v', rfl, hv⟩ := hw.append hchange
    · exact .itemsStatement (ih trivial hu) hss
    · exact .itemsStatement hs (ihs trivial hv)
    · exact .itemsStatement hs (hchange.items hv hss)
  | block hbody hne ih =>
    obtain _ | hw := hw
    obtain ⟨u', rfl, hu | rfl⟩ := hw.concat hchange (by decide)
    · exact .block (ih trivial hu) hne
    · exact .block (items_line hbody) hne
  | headedBlock hblock ih =>
    obtain _ | hindent | hw := hw
    · cases hblock
      exact absurd hindent hchange.ne_indent
    · exact .headedBlock (ih trivial hw)
  | functionDefinition hps hbody _ ih =>
    obtain _ | _ | _ | hw := hw
    obtain ⟨v', rfl, hv⟩ := hw.behindInline hchange
      (derives_noLayout hps (List.forall_mem_map.mpr fun _ _ => trivial))
    obtain _ | hv := hv
    exact .functionDefinition hps (ih trivial hv)
  | membersLine hms ih =>
    obtain hw | hw := hw
    · exact .membersLine (hchange.members hw hms)
    · exact .membersLine (ih trivial hw)
  | membersPass hms ih =>
    obtain _ | hw | hw := hw
    · exact .membersPass (hchange.members hw hms)
    · exact .membersPass (ih trivial hw)
  | membersMethod hf hms ih ihs =>
    obtain ⟨u', rfl, hu⟩ | ⟨v', rfl, hv⟩ := hw.parts hchange (getLast?_ne_newline hf trivial)
    · exact .membersMethod (ih trivial hu) hms
    · exact .membersMethod hf (ihs trivial hv)
  | elseIf htest hbody _ ih =>
    obtain _ | _ | hw := hw
    obtain ⟨v', rfl, hv⟩ := hw.behindInline hchange (derives_noLayout htest trivial)
    exact .elseIf htest (ih trivial hv)
  | otherwiseSome hbody ih =>
    obtain _ | hw := hw
    exact .otherwiseSome (ih trivial hw)
  | functionStatement hf ih => exact .functionStatement (ih trivial hw)
  | classStatement hms hne ih =>
    obtain _ | _ | _ | hindent | _ | hw := hw
    · exact absurd hindent hchange.ne_indent
    · obtain ⟨u', rfl, hu | rfl⟩ := hw.concat hchange (by decide)
      · exact .classStatement (ih trivial hu) hne
      · exact .classStatement (members_line hms) hne
  | returnNothing | continueStatement | breakStatement | passStatement =>
    obtain _ | hnil | ⟨⟨⟩⟩ := hw
    exact absurd hnil hchange.ne_nil
  | returnValue he | assertStatement he =>
    obtain _ | hw := hw
    exact absurd hw (not_reline_line hchange (derives_noLayout he trivial))
  | expressionStatement he =>
    exact absurd hw (not_reline_line hchange (derives_noLayout he trivial))
  | declaration n isMutable =>
    exact absurd hw (not_reline_line hchange (noLayout_binding n isMutable))
  | initialization he =>
    rw [List.append_assoc] at hw
    obtain ⟨v', -, hv⟩ := hw.behindInline hchange (noLayout_binding _ _)
    obtain _ | hv := hv
    exact absurd hv (not_reline_line hchange (derives_noLayout he trivial))
  | assignment htarget he =>
    rw [List.append_assoc] at hw
    obtain ⟨v', -, hv⟩ := hw.behindInline hchange (derives_noLayout htarget trivial)
    obtain _ | hv := hv
    exact absurd hv (not_reline_line hchange (derives_noLayout he trivial))
  | ifStatement htest hbody hbranches hrest _ ihbody ihbranches ihrest =>
    rw [List.append_assoc, List.append_assoc] at hw
    obtain _ | hw := hw
    obtain ⟨v, rfl, hv⟩ := hw.behindInline hchange (derives_noLayout htest trivial)
    rw [← List.cons_append]
    obtain ⟨u', rfl, hu⟩ | ⟨x, rfl, hx⟩ := hv.parts hchange (getLast?_ne_newline hbody trivial)
    · rw [← List.append_assoc, ← List.append_assoc]
      exact .ifStatement htest (ihbody trivial hu) hbranches hrest
    obtain ⟨u', rfl, hu⟩ | ⟨y, rfl, hy⟩ := hx.parts hchange (getLast?_branches hbranches)
    · rw [← List.append_assoc, ← List.append_assoc]
      exact .ifStatement htest hbody (ihbranches ⟨_, rfl⟩ hu) hrest
    · rw [← List.append_assoc, ← List.append_assoc]
      exact .ifStatement htest hbody hbranches (ihrest trivial hy)
  | whileStatement htest hbody _ ih =>
    obtain _ | hw := hw
    obtain ⟨v', rfl, hv⟩ := hw.behindInline hchange (derives_noLayout htest trivial)
    exact .whileStatement htest (ih trivial hv)
  | @forStatement _ _ _ _ binder hiterable hbody _ ih =>
    rw [List.append_assoc] at hw
    obtain _ | hw := hw
    obtain ⟨v, rfl, hv⟩ := hw.behindInline hchange (noLayout_loop binder)
    obtain _ | hv := hv
    obtain ⟨v', rfl, hv'⟩ := hv.behindInline hchange (derives_noLayout hiterable trivial)
    have hloop := @Derives.forStatement _ _ _ _ binder hiterable (ih trivial hv')
    rwa [List.append_assoc] at hloop
  | program hss ih =>
    obtain ⟨u', rfl, hu | rfl⟩ := hw.concat hchange (by decide)
    · exact .program (ih trivial hu)
    · exact .program (items_line hss)
  | _ => exact hp.elim

/-! ## One more line end -/

/-- The other terminals have one more line end behind a line end, though not before an indent nor at
the end. -/
inductive ExtraLine : List Terminal → List Terminal → Prop where
  | here {a : Terminal} {u : List Terminal} :
    a ≠ word .indent → ExtraLine (word .newline :: a :: u) (word .newline :: word .newline :: a :: u)
  | there {a : Terminal} {u v : List Terminal} : ExtraLine u v → ExtraLine (a :: u) (a :: v)

/-- A line end before a terminal that is no indent. -/
def AddsLine (u w : List Terminal) : Prop :=
  w = word .newline :: u ∧ ∃ a ∈ u.head?, a ≠ word .indent

theorem addsLine_behindLine : BehindLine AddsLine where
  ne_nil := fun ⟨_, _, ha, _⟩ => nomatch ha
  ne_indent := fun ⟨_, _, ha, hne⟩ => hne (Option.some.inj ha).symm
  append := by
    rintro a u v _ ⟨rfl, ha⟩
    exact ⟨word .newline :: a :: u, rfl, rfl, ha⟩
  last _ := And.left
  items := by
    rintro b u _ ⟨rfl, -⟩ h
    exact .itemsLine h
  members := by
    rintro ms u _ ⟨rfl, -⟩ h
    exact .membersLine h

theorem ExtraLine.reline (h : ExtraLine u w) : Reline AddsLine u w := by
  induction h with
  | here ha => exact .here ⟨rfl, _, rfl, ha⟩
  | there _ ih => exact .there ih

theorem extraLine_of_append (ha : a ≠ word .indent) (u v : List Terminal) :
    ExtraLine (u ++ word .newline :: a :: v) (u ++ word .newline :: word .newline :: a :: v) := by
  induction u with
  | nil => exact .here ha
  | cons b u ih => exact .there ih

theorem derives_extraLine {p : Phrase} (h : Derives p u) (hp : p.TakesLines) (hw : ExtraLine u w) :
    Derives p w :=
  derives_reline addsLine_behindLine h hp hw.reline

/-! ## Indents that come late -/

/-- Behind the two terminals, each indent stands right after a colon and a line end. -/
def Headed : Terminal → Terminal → List Terminal → Prop
  | _, _, [] => True
  | a, b, c :: u => (c = word .indent → a = word .colon ∧ b = word .newline) ∧ Headed b c u

theorem Headed.append {b : Terminal} (h : Headed a b u) (h' : ∀ a b, Headed a b v) :
    Headed a b (u ++ v) := by
  induction u generalizing a b with
  | nil => exact h' a b
  | cons c u ih => exact ⟨h.1, ih h.2⟩

theorem NoLayout.headed (h : NoLayout u) (a b : Terminal) : Headed a b u := by
  induction u generalizing a b with
  | nil => trivial
  | cons c u ih =>
    obtain ⟨hc, hu⟩ := noLayout_cons.mp h
    refine ⟨?_, ih hu b c⟩
    rintro rfl
    cases hc

theorem NoLayout.headed_line (h : NoLayout u) (a b : Terminal) :
    Headed a b (u ++ [word .newline]) :=
  (h.headed a b).append fun _ _ => ⟨nofun, trivial⟩

theorem derives_headed {p : Phrase} (h : Derives p u) (hp : p.TakesLines) (a b : Terminal)
    (hblock : ∀ body, p = .block body → a = word .colon ∧ b = word .newline) : Headed a b u := by
  induction h generalizing a b with
  | starNil | itemsNil | membersNil | otherwiseNone => trivial
  | starCons hd hds ih ihs =>
    obtain ⟨branch, rfl, hrest⟩ := hp.uncons
    exact (ih trivial a b nofun).append fun a b => ihs hrest a b nofun
  | itemsLine _ ih | membersLine _ ih => exact ⟨nofun, ih trivial _ _ nofun⟩
  | itemsStatement _ _ ih ihs | membersMethod _ _ ih ihs =>
    exact (ih trivial a b nofun).append fun a b => ihs trivial a b nofun
  | block _ _ ih =>
    refine ⟨fun _ => hblock _ rfl, (ih trivial _ _ nofun).append fun a b => ?_⟩
    exact ⟨nofun, trivial⟩
  | headedBlock _ ih => exact ⟨nofun, nofun, ih trivial _ _ fun _ _ => ⟨rfl, rfl⟩⟩
  | functionDefinition hps hbody _ ih =>
    have hinline := derives_noLayout hps (List.forall_mem_map.mpr fun _ _ => trivial)
    exact ⟨nofun, nofun, nofun, (hinline.headed _ _).append fun a b => ⟨nofun, ih trivial _ _ nofun⟩⟩
  | membersPass _ ih => exact ⟨nofun, nofun, ih trivial _ _ nofun⟩
  | elseIf htest _ _ ih =>
    have hinline := derives_noLayout htest trivial
    exact ⟨nofun, nofun, (hinline.headed _ _).append fun a b => ih trivial a b nofun⟩
  | otherwiseSome _ ih => exact ⟨nofun, ih trivial _ _ nofun⟩
  | functionStatement _ ih => exact ih trivial a b nofun
  | classStatement _ _ ih =>
    refine ⟨nofun, nofun, nofun, nofun, fun _ => ⟨rfl, rfl⟩, ?_⟩
    exact (ih trivial _ _ nofun).append fun a b => ⟨nofun, trivial⟩
  | returnNothing | continueStatement | breakStatement | passStatement =>
    exact ⟨nofun, nofun, trivial⟩
  | returnValue he | assertStatement he =>
    exact ⟨nofun, (derives_noLayout he trivial).headed_line _ _⟩
  | expressionStatement he => exact (derives_noLayout he trivial).headed_line a b
  | declaration n isMutable => exact (noLayout_binding n isMutable).headed_line a b
  | initialization he =>
    rw [List.append_assoc]
    exact ((noLayout_binding _ _).headed a b).append fun a b =>
      ⟨nofun, (derives_noLayout he trivial).headed_line _ _⟩
  | assignment htarget he =>
    rw [List.append_assoc]
    exact ((derives_noLayout htarget trivial).headed a b).append fun a b =>
      ⟨nofun, (derives_noLayout he trivial).headed_line _ _⟩
  | ifStatement htest _ _ _ _ ihbody ihbranches ihrest =>
    have hhead : Headed a b (word .ifWord :: _) :=
      ⟨nofun, (derives_noLayout htest trivial).headed b (word .ifWord)⟩
    exact ((hhead.append fun a b => ihbody trivial a b nofun).append fun a b =>
      ihbranches ⟨_, rfl⟩ a b nofun).append fun a b => ihrest trivial a b nofun
  | whileStatement htest _ _ ih =>
    exact ⟨nofun, ((derives_noLayout htest trivial).headed _ _).append fun a b => ih trivial a b nofun⟩
  | @forStatement _ _ _ _ binder hiterable _ _ ih =>
    have hloop : Headed a b (word .forWord :: loopTerminals binder) :=
      ⟨nofun, (noLayout_loop binder).headed b (word .forWord)⟩
    rw [List.append_assoc]
    exact hloop.append fun a b => ⟨nofun, ((derives_noLayout hiterable trivial).headed _ _).append
      fun a b => ih trivial a b nofun⟩
  | program _ ih => exact (ih trivial a b nofun).append fun a b => ⟨nofun, trivial⟩
  | _ => exact hp.elim

theorem not_headed_late (a b : Terminal) (u v : List Terminal) :
    ¬ Headed a b (u ++ word .newline :: word .newline :: word .indent :: v) := by
  intro h
  induction u generalizing a b with
  | nil => exact absurd (h.2.2.1 rfl).1 (by decide)
  | cons c u ih => exact ih b c h.2

/-! ## Programs -/

theorem program_head {p : Program} (h : Derives (.program p) u) :
    u.head? ≠ some (word .indent) := by
  intro hhead
  obtain ⟨v, rfl⟩ := List.head?_eq_some_iff.mp hhead
  have hheaded := derives_headed h trivial (word .newline) (word .newline) nofun
  exact absurd (hheaded.1 rfl).1 (by decide)

/-- A line end more leaves the program alone, unless an indent follows. Then nothing is derived. -/
theorem program_newline {p : Program} (h : Derives (.program p) (u ++ word .newline :: v)) :
    (v.head? ≠ some (word .indent) →
      Derives (.program p) (u ++ word .newline :: word .newline :: v)) ∧
    (v.head? = some (word .indent) →
      ∀ q, ¬ Derives (.program q) (u ++ word .newline :: word .newline :: v)) := by
  constructor
  · intro hhead
    cases v with
    | nil =>
      generalize hs : u ++ [word .newline] = s at h
      cases h with
      | program => cases (List.append_inj' hs rfl).2
    | cons a v =>
      have ha : a ≠ word .indent := fun ha => hhead (congrArg some ha)
      exact derives_extraLine h trivial (extraLine_of_append ha u v)
  · intro hhead q hq
    obtain ⟨v, rfl⟩ := List.head?_eq_some_iff.mp hhead
    exact not_headed_late _ _ u v
      (derives_headed hq trivial (word .newline) (word .newline) nofun)

end Offside.Grammar
