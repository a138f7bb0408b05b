import Mathlib.Logic.Relation
import Offside.Proofs.Value.Equality
import Offside.Value.Text

/-!
# Only cycles are cut short

The text of a value is written in full, but for the containers that stand inside themselves. What
no container leads back to thus has the text that it would have if nothing looked for cycles, even
where one container occurs several times.
-/

namespace Offside

/-! ## Containers and their parts -/

namespace Container

def enclose : Container → String → String
  | .list _, text => "[" ++ text ++ "]"
  | .dictionary _, text => "\x7b" ++ text ++ "\x7d"

theorem toValue_injective {c d : Container} (h : c.toValue = d.toValue) : c = d := by
  cases c <;> cases d <;> cases h <;> rfl

end Container

namespace Store

/-- What a container holds, each with the text that goes before it. -/
def parts (s : Store) : Container → List (String × Value)
  | .list a => (s.list a).toList.map fun v => ("", v)
  | .dictionary a => (s.dictionary a).entries.toList.map fun e =>
      (e.1.toValue.scalarText true ++ ": ", e.2)

/-- The text of a container that is written in full, from the texts of what it holds. -/
def containerText (s : Store) (c : Container) (text : Value → String) : String :=
  c.enclose (", ".intercalate ((s.parts c).map fun p => p.1 ++ text p.2))

/-- A container is an element or the value of an entry of another one. -/
def Encloses (s : Store) (c d : Container) : Prop := ∃ p ∈ s.parts c, p.2 = d.toValue

variable {s : Store} {c : Container} {p : String × Value}

theorem containerText_congr {text text' : Value → String}
    (h : ∀ p ∈ s.parts c, text p.2 = text' p.2) :
    s.containerText c text = s.containerText c text' := by
  unfold containerText
  rw [List.map_congr_left fun p hp => congrArg (p.1 ++ ·) (h p hp)]

theorem mem_everyContainer_of_parts (h : p ∈ s.parts c) : c ∈ s.everyContainer := by
  cases c with
  | list a =>
    obtain ⟨v, hv, -⟩ := List.mem_map.mp h
    exact mem_everyContainer_of_list hv
  | dictionary a =>
    obtain ⟨e, he, -⟩ := List.mem_map.mp h
    exact mem_everyContainer_of_dictionary (Dictionary.get?_eq_some.mpr he)

end Store

namespace Value

/-! ## The text with and without a check -/

/-- The texts of values inside the containers `above`, innermost first. Of the containers that are
met on the way, those that `Cut` picks are cut short, and all others are written in full. -/
inductive Written (s : Store) (Cut : List Container → Container → Prop) :
    List Container → Bool → Value → String → Prop where
  | scalar {above : List Container} {quote : Bool} {v : Value} :
    (∀ c : Container, v ≠ c.toValue) → Written s Cut above quote v (v.scalarText quote)
  | short {above : List Container} {quote : Bool} {c : Container} :
    Cut above c → Written s Cut above quote c.toValue (c.enclose "...")
  | full {above : List Container} {quote : Bool} {c : Container} {text : Value → String} :
    ¬ Cut above c → (∀ p ∈ s.parts c, Written s Cut (c :: above) true p.2 (text p.2)) →
    Written s Cut above quote c.toValue (s.containerText c text)

/-- A container is being written if the way to it went through it before. -/
def Active (above : List Container) (c : Container) : Prop := c ∈ above

/-- Nothing is cut short. -/
def Never (_ : List Container) (_ : Container) : Prop := False

/-- No container in a value holds itself, in however many steps. -/
def CycleFree (s : Store) (v : Value) : Prop :=
  ∀ c d : Container, v = c.toValue → Relation.ReflTransGen s.Encloses c d →
    ¬ Relation.TransGen s.Encloses d d

section Written

variable {s : Store} {Cut : List Container → Container → Prop} {above : List Container}
  {quote : Bool} {v : Value} {text text' : String}

/-- A value has one text. -/
theorem Written.unique (h : Written s Cut above quote v text)
    (h' : Written s Cut above quote v text') : text = text' := by
  induction h generalizing text' with
  | scalar hscalar =>
    cases h' with
    | scalar => rfl
    | short | full => exact absurd rfl (hscalar _)
  | @short above quote c hcut =>
    generalize hv : c.toValue = v at h'
    cases h' with
    | scalar hscalar => exact absurd hv.symm (hscalar c)
    | short =>
      obtain rfl := Container.toValue_injective hv
      rfl
    | full hcut' =>
      obtain rfl := Container.toValue_injective hv
      exact absurd hcut hcut'
  | @full above quote c text hcut _ ih =>
    generalize hv : c.toValue = v at h'
    cases h' with
    | scalar hscalar => exact absurd hv.symm (hscalar c)
    | short hcut' =>
      obtain rfl := Container.toValue_injective hv
      exact absurd hcut' hcut
    | full _ hparts' =>
      obtain rfl := Container.toValue_injective hv
      exact Store.containerText_congr fun p hp => ih p hp (hparts' p hp)

theorem CycleFree.part {c : Container} {p : String × Value} (h : CycleFree s c.toValue)
    (hp : p ∈ s.parts c) : CycleFree s p.2 := by
  intro d e hd hde
  exact h c e rfl (.head ⟨p, hp, hd⟩ hde)

/-- Where there are no cycles, no check finds a container inside itself. -/
theorem Written.never (h : Written s Active above quote v text) (hfree : CycleFree s v)
    (habove : ∀ a ∈ above, ∀ c : Container, v = c.toValue → Relation.TransGen s.Encloses a c) :
    Written s Never above quote v text := by
  induction h with
  | scalar hscalar => exact .scalar hscalar
  | @short above quote c hactive =>
    -- the way from the container above back to itself would be a cycle
    exact absurd (habove c hactive c rfl) (hfree c c rfl .refl)
  | @full above quote c text _ _ ih =>
    refine .full not_false fun p hp => ih p hp (hfree.part hp) ?_
    intro a ha d hd
    have hstep : s.Encloses c d := ⟨p, hp, hd⟩
    rcases List.mem_cons.mp ha with rfl | ha
    · exact .single hstep
    · exact (habove a ha c rfl).tail hstep

/-- What is held has a smaller rank, so that nothing holds itself. -/
theorem cycleFree_of_rank {rank : Container → Nat} (h : ∀ c d, s.Encloses c d → rank d < rank c) :
    CycleFree s v := by
  intro c d _ _ hcycle
  have hlt : ∀ e, Relation.TransGen s.Encloses d e → rank e < rank d := by
    intro e he
    induction he with
    | single hstep => exact h _ _ hstep
    | tail _ hstep ih => exact Nat.lt_trans (h _ _ hstep) ih
  exact Nat.lt_irrefl _ (hlt d hcycle)

end Written

/-! ## The text that is written -/

/-- So many steps are left that a container is met again before they run out. -/
structure Spare (s : Store) (depth : Nat) (active : List Container) : Prop where
  nodup : active.Nodup
  subset : active ⊆ s.everyContainer
  bound : s.containers < depth + active.length

section Text

variable {s : Store} {depth : Nat} {active : List Container} {quote : Bool} {v : Value}
  {c : Container}

theorem spare_start : Spare s (s.containers + 1) [] :=
  ⟨List.nodup_nil, List.nil_subset _, Nat.lt_succ_self _⟩

theorem not_spare_zero : ¬ Spare s 0 active := by
  intro h
  have hle : active.length ≤ s.everyContainer.length := (h.nodup.subperm h.subset).length_le
  rw [s.length_everyContainer] at hle
  have := h.bound
  omega

theorem Spare.push (h : Spare s (depth + 1) active) (hnew : c ∉ active)
    (hc : c ∈ s.everyContainer) : Spare s depth (c :: active) where
  nodup := List.nodup_cons.mpr ⟨hnew, h.nodup⟩
  subset := List.cons_subset.mpr ⟨hc, h.subset⟩
  bound := by
    have := h.bound
    rw [List.length_cons]
    omega

theorem textWithin_of_scalar (h : ∀ c : Container, v ≠ c.toValue) :
    v.textWithin s depth active quote = v.scalarText quote := by
  cases depth with
  | zero => rfl
  | succ depth =>
    unfold textWithin
    split
    · exact (h (.list _) rfl).elim
    · exact (h (.dictionary _) rfl).elim
    · rfl

theorem textWithin_list {a : ListId} : textWithin s (depth + 1) active quote (.list a) =
    if active.contains (.list a) then "[...]"
    else "[" ++ ", ".intercalate ((s.list a).toList.map
      (textWithin s depth (.list a :: active) true)) ++ "]" :=
  rfl

theorem textWithin_dictionary {a : DictionaryId} :
    textWithin s (depth + 1) active quote (.dictionary a) =
      if active.contains (.dictionary a) then "\x7b...\x7d"
      else "\x7b" ++ ", ".intercalate ((s.dictionary a).entries.toList.map fun e =>
        e.1.toValue.scalarText true ++ ": " ++
          textWithin s depth (.dictionary a :: active) true e.2) ++ "\x7d" :=
  rfl

theorem textWithin_toValue : c.toValue.textWithin s (depth + 1) active quote =
    if c ∈ active then c.enclose "..."
    else s.containerText c (textWithin s depth (c :: active) true) := by
  unfold Store.containerText Store.parts
  cases c with
  | list a =>
    simp only [Container.toValue, textWithin_list, List.contains_iff_mem, List.map_map,
      Function.comp_def, String.empty_append]
    rfl
  | dictionary a =>
    simp only [Container.toValue, textWithin_dictionary, List.contains_iff_mem, List.map_map,
      Function.comp_def]
    rfl

/-- Every value has a text, which is found before the depth runs out. -/
theorem written_textWithin (h : Spare s depth active) :
    Written s Active active quote v (v.textWithin s depth active quote) := by
  induction depth generalizing active quote v with
  | zero => exact absurd h not_spare_zero
  | succ depth ih =>
    by_cases hcontainer : ∃ c : Container, v = c.toValue
    · obtain ⟨c, rfl⟩ := hcontainer
      rw [textWithin_toValue]
      split
      · rename_i hactive
        exact .short hactive
      · rename_i hnew
        exact .full hnew fun p hp => ih (h.push hnew (Store.mem_everyContainer_of_parts hp))
    · have hscalar := not_exists.mp hcontainer
      rw [textWithin_of_scalar hscalar]
      exact .scalar hscalar

theorem written_iff {text : String} : Written s Active [] quote v text ↔
    text = v.textWithin s (s.containers + 1) [] quote := by
  constructor
  · exact fun h => h.unique (written_textWithin spare_start)
  · rintro rfl
    exact written_textWithin spare_start

theorem written_never_iff {text : String} (h : CycleFree s v) : Written s Never [] quote v text ↔
    text = v.textWithin s (s.containers + 1) [] quote := by
  have hwritten : Written s Active [] quote v (v.textWithin s (s.containers + 1) [] quote) :=
    written_textWithin spare_start
  have hnever := hwritten.never h (by simp)
  constructor
  · exact fun h' => h'.unique hnever
  · rintro rfl
    exact hnever

end Text

/-- Every value of every store has a text. In it a container is cut short where the way to it went
through it before, and nowhere else. Without cycles the text is the one that no check changes. -/
theorem text_exact (s : Store) (v : Value) :
    (∀ text, Written s Active [] false v text ↔ text = v.display s) ∧
    (∀ text, Written s Active [] true v text ↔ text = v.repr s) ∧
    (CycleFree s v →
      (∀ text, Written s Never [] false v text ↔ text = v.display s) ∧
      ∀ text, Written s Never [] true v text ↔ text = v.repr s) :=
  ⟨fun _ => written_iff, fun _ => written_iff,
    fun h => ⟨fun _ => written_never_iff h, fun _ => written_never_iff h⟩⟩

/-- A dictionary that holds one list twice. -/
def sharingStore : Store where
  frames := #[]
  lists := #[#[.string "a"]]
  dictionaries := #[.ofList [(.boolean true, .list ⟨0⟩), (.string "b", .list ⟨0⟩)]]
  identities := 0
  output := ⟨"", none⟩

theorem text_exact_shared : CycleFree sharingStore (.dictionary ⟨0⟩) ∧
    Written sharingStore Never [] false (.dictionary ⟨0⟩)
      "\x7btrue: ['a'], 'b': ['a']\x7d" := by
  let rank : Container → Nat
    | .list _ => 0
    | .dictionary _ => 1
  have hrank : ∀ c d, sharingStore.Encloses c d → rank d < rank c := by
    rintro c d ⟨p, hp, hd⟩
    have hc : c ∈ [.list ⟨0⟩, .dictionary ⟨0⟩] := Store.mem_everyContainer_of_parts hp
    simp only [List.mem_cons, List.not_mem_nil, or_false] at hc
    rcases hc with rfl | rfl
    · obtain rfl : p = ("", .string "a") := List.mem_singleton.mp hp
      cases d <;> cases hd
    · replace hp : p ∈ [("true: ", Value.list ⟨0⟩), ("'b': ", .list ⟨0⟩)] := hp
      cases d with
      | list a => exact Nat.zero_lt_one
      | dictionary a =>
        rcases hp with _ | ⟨_, _ | ⟨_, hp⟩⟩
        · cases hd
        · cases hd
        · cases hp
  have hfree : CycleFree sharingStore (.dictionary ⟨0⟩) := cycleFree_of_rank hrank
  exact ⟨hfree, (((text_exact sharingStore _).2.2 hfree).1 _).mpr (by decide +kernel)⟩

example :
    Value.display { sharingStore with lists := #[#[.list ⟨0⟩, .null, .list ⟨0⟩]] } (.list ⟨0⟩) =
      "[[...], null, [...]]" := by
  decide +kernel

end Value

end Offside
