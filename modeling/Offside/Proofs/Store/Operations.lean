import Offside.Proofs.Store.Contents

/-!
# Operations on values leave the frames alone

Arithmetic, indexing, iteration and the built-in functions change containers and the output at
most. What they store was in the store before, was given to them or is plain.
-/

namespace Offside

/-- The result is as stated, or the fault is one of operations. -/
def Yields {α : Type} (x : Except Fault α) (Q : α → Prop) : Prop :=
  match x with
  | .ok a => Q a
  | .error e => e.ofOperation = true

/-- The part changes no frame, keeps what the store holds, and fails as operations do. -/
def Run.Contained {α : Type} (P : Value → Prop) (r : Run α) (Q : α → Prop) : Prop :=
  ∀ s, s.Holds P → r.Meets s (fun a s' => s'.frames = s.frames ∧ s'.Holds P ∧ Q a)
    (fun e s' => s'.frames = s.frames ∧ s'.Holds P ∧ e.ofOperation = true)

section Rules

variable {α β : Type} {P : Value → Prop} {Q Q' : α → Prop} {R : β → Prop}

theorem Yields.bind {x : Except Fault α} {f : α → Except Fault β} (hx : Yields x Q)
    (hf : ∀ a, Q a → Yields (f a) R) : Yields (x >>= f) R := by
  cases x with
  | ok a => exact hf a hx
  | error e => exact hx

namespace Run

theorem Contained.mono {r : Run α} (h : Contained P r Q) (hQ : ∀ a, Q a → Q' a) :
    Contained P r Q' := by
  intro s hs
  refine (h s hs).imp fun a s' h => ?_
  exact ⟨h.1, h.2.1, hQ a h.2.2⟩

theorem contained_pure {a : α} (h : Q a) : Contained P (pure a) Q :=
  fun _ hs => ⟨rfl, hs, h⟩

theorem contained_bind {r : Run α} {f : α → Run β} (hr : Contained P r Q)
    (hf : ∀ a, Q a → Contained P (f a) R) : Contained P (r >>= f) R := by
  intro s hs
  apply meets_bind
  refine (hr s hs).imp fun a s' h => ?_
  obtain ⟨hframes, hs', ha⟩ := h
  rw [← hframes]
  exact hf a ha s' hs'

theorem contained_fail {e : Fault} (h : e.ofOperation = true) :
    Contained P (fail e : Run α) Q :=
  fun _ hs => ⟨rfl, hs, h⟩

theorem contained_ofExcept {x : Except Fault α} (h : Yields x Q) :
    Contained P (ofExcept x) Q := by
  intro s hs
  cases x with
  | ok a => exact ⟨rfl, hs, h⟩
  | error e => exact ⟨rfl, hs, h⟩

theorem contained_read {f : Store → α} (h : ∀ s, s.Holds P → Q (f s)) :
    Contained P (read f) Q :=
  fun s hs => ⟨rfl, hs, h s hs⟩

theorem contained_readExcept {f : Store → Except Fault α}
    (h : ∀ s, s.Holds P → Yields (f s) Q) : Contained P (readExcept f) Q := by
  intro s hs
  have hf := h s hs
  unfold Meets readExcept
  cases hx : f s with
  | ok a =>
    rw [hx] at hf
    exact ⟨rfl, hs, hf⟩
  | error e =>
    rw [hx] at hf
    exact ⟨rfl, hs, hf⟩

end Run

end Rules

/-! ## New things -/

namespace Store

open Run

variable {P : Value → Prop}

theorem freshIdentity_contained : Contained P freshIdentity fun _ => True :=
  fun _ hs => ⟨rfl, hs.of_eq rfl rfl rfl, trivial⟩

theorem readList_contained (id : ListId) :
    Contained P (read (·.list id)) fun items => ∀ v ∈ items, P v :=
  contained_read fun _ hs => hs.lists id

theorem newList_contained {items : Array Value} (h : ∀ v ∈ items, P v) :
    Contained P (newList items) fun v => v.isPlain = true := by
  intro s hs
  refine ⟨rfl, ⟨hs.frames, ?_, hs.dictionaries⟩, rfl⟩
  intro id v hv
  have hlist : ({ s with lists := s.lists.push items } : Store).list id =
      if id.index = s.lists.size then items else s.list id := getD_push ..
  rw [hlist] at hv
  split at hv
  · exact h v hv
  · exact hs.lists id v hv

theorem newDictionary_contained {d : Dictionary} (h : ∀ e ∈ d.entries, P e.2) :
    Contained P (newDictionary d) fun v => v.isPlain = true := by
  intro s hs
  refine ⟨rfl, ⟨hs.frames, hs.lists, ?_⟩, rfl⟩
  intro id e he
  have hdictionary : ({ s with dictionaries := s.dictionaries.push d } : Store).dictionary id =
      if id.index = s.dictionaries.size then d else s.dictionary id := getD_push ..
  rw [hdictionary] at he
  split at he
  · exact h e he
  · exact hs.dictionaries id e he

theorem write_contained (text : String) : Contained P (write text) fun _ => True := by
  intro s hs
  unfold Meets write
  split
  · rename_i hwrite
    split at hwrite
    · cases hwrite
      exact ⟨rfl, hs.of_eq rfl rfl rfl, trivial⟩
    · cases hwrite
  · rename_i hwrite
    split at hwrite
    · cases hwrite
    · cases hwrite
      exact ⟨rfl, hs, rfl⟩
  · trivial

end Store

/-! ## Arithmetic and comparisons -/

namespace Number

theorem checked_yields (op : Operator) (n : Int) :
    Yields (checked op n) fun v => v.isPlain = true := by
  unfold checked
  split <;> rfl

theorem integers_yields (op : Operator) (a b : Int64) :
    Yields (integers op a b) fun v => v.isPlain = true := by
  unfold integers
  split
  · exact checked_yields ..
  · exact checked_yields ..
  · exact checked_yields ..
  · split
    · rfl
    · exact checked_yields ..
  · rfl

theorem floats_yields (op : Operator) (x y : Float) :
    Yields (floats op x y) fun v => v.isPlain = true := by
  cases op <;> rfl

theorem negate_yields (v : Value) : Yields (negate v) fun w => w.isPlain = true := by
  unfold negate
  split
  · exact checked_yields ..
  · rfl
  · rfl

end Number

namespace Value

open Run Store

variable {P : Value → Prop}

theorem compares_yields (s : Store) (op : Operator) (v w : Value) :
    Yields (compares s op v w) fun _ => True := by
  unfold compares
  split
  · trivial
  · trivial
  · split
    · rfl
    · trivial
    · split
      · trivial
      · rfl

theorem repeatCount_yields (n : Int64) : Yields (repeatCount n) fun _ => True := by
  unfold repeatCount
  split
  · trivial
  · rfl

theorem checkLength_yields (n : Nat) : Yields (checkLength n) fun _ => True := by
  unfold checkLength
  split
  · trivial
  · rfl

theorem repeatString_yields (text : String) (n : Int64) :
    Yields (repeatString text n) fun v => v.isPlain = true := by
  refine (repeatCount_yields n).bind fun count _ => ?_
  refine (checkLength_yields _).bind fun _ _ => ?_
  split <;> rfl

theorem of_mem_cycled {items : Array Value} (h : ∀ v ∈ items, P v) (count : Nat) :
    ∀ v ∈ cycled items count, P v := by
  unfold cycled
  induction count with
  | zero => simp [Nat.repeat]
  | succ n ih =>
    intro v hv
    rcases Array.mem_append.mp hv with hv | hv
    · exact ih v hv
    · exact h v hv

theorem repeatList_contained (id : ListId) (n : Int64) :
    Contained P (repeatList id n) fun v => v.isPlain = true := by
  refine contained_bind (contained_ofExcept (repeatCount_yields n)) fun count _ => ?_
  refine contained_bind (readList_contained id) fun items hitems => ?_
  refine contained_bind (contained_ofExcept (checkLength_yields _)) fun _ _ => ?_
  apply newList_contained
  split
  · exact hitems
  · exact of_mem_cycled hitems count

theorem arithmetic_contained (op : Operator) (v w : Value) :
    Contained P (arithmetic op v w) fun u => u.isPlain = true := by
  unfold arithmetic
  split
  · exact contained_ofExcept (Number.integers_yields ..)
  · exact contained_ofExcept (Number.floats_yields ..)
  · exact contained_ofExcept (Number.floats_yields ..)
  · exact contained_ofExcept (Number.floats_yields ..)
  · split
    · exact contained_ofExcept ((checkLength_yields _).bind fun _ _ => rfl)
    · refine contained_bind (readList_contained _) fun xs hxs => ?_
      refine contained_bind (readList_contained _) fun ys hys => ?_
      refine contained_bind (contained_ofExcept (checkLength_yields _)) fun _ _ => ?_
      apply newList_contained
      intro v hv
      rcases Array.mem_append.mp hv with hv | hv
      · exact hxs v hv
      · exact hys v hv
    · exact contained_ofExcept (repeatString_yields ..)
    · exact contained_ofExcept (repeatString_yields ..)
    · exact repeatList_contained _ _
    · exact repeatList_contained _ _
    · exact contained_fail rfl

/-! ## Indices and keys -/

theorem position_yields (k : Value) (length : Nat) : Yields (position k length) fun _ => True := by
  unfold position
  split
  · rename_i i
    dsimp only
    generalize (if i.toInt < 0 then i.toInt + length else i.toInt) = place
    split
    · trivial
    · rfl
  · rfl

theorem key_yields (v : Value) : Yields (key v) fun _ => True := by
  unfold key
  split
  · trivial
  · rfl

theorem index_yields (hplain : ∀ v : Value, v.isPlain = true → P v) {s : Store} (hs : s.Holds P)
    (v k : Value) : Yields (index s v k) P := by
  unfold index
  split
  · refine (position_yields _ _).bind fun i _ => ?_
    show P ((s.list _).getD i .null)
    rw [Array.getD_eq_getD_getElem?]
    cases hi : (s.list _)[i]? with
    | none => exact hplain _ rfl
    | some v => exact hs.lists _ v (Array.mem_of_getElem? hi)
  · exact (position_yields _ _).bind fun i _ => hplain _ rfl
  · refine (key_yields _).bind fun k _ => ?_
    split
    · rename_i hget
      exact Dictionary.of_get? (hs.dictionaries _) hget
    · rfl
  · rfl

theorem setIndex_contained (v k : Value) {new : Value} (hnew : new.isVoid = false → P new) :
    Contained P (setIndex v k new) fun _ => True := by
  unfold setIndex
  split
  · exact contained_bind (contained_read fun _ _ => trivial) fun _ (_ : True) => contained_fail rfl
  · rename_i hvoid
    have hnew' : P new := hnew (by simpa using hvoid)
    split
    · rename_i id
      refine contained_bind (contained_readExcept fun s _ => position_yields _ _) fun i _ => ?_
      intro s hs
      refine ⟨rfl, hs.modifyList id ?_, trivial⟩
      intro v hv
      rcases Array.mem_or_eq_of_mem_setIfInBounds hv with hv | rfl
      · exact hs.lists id v hv
      · exact hnew'
    · rename_i id
      refine contained_bind (contained_ofExcept (key_yields _)) fun k _ => ?_
      intro s hs
      refine ⟨rfl, hs.modifyDictionary id ?_, trivial⟩
      intro e he
      rcases Dictionary.mem_insert he with hv | he
      · rw [hv]
        exact hnew'
      · exact hs.dictionaries id e he
    · exact contained_fail rfl

theorem iterate_yields (hplain : ∀ v : Value, v.isPlain = true → P v) {s : Store}
    (hs : s.Holds P) (v : Value) : Yields (iterate s v) fun items => ∀ v ∈ items, P v := by
  unfold iterate
  split
  · intro v hv
    exact hs.lists _ v (Array.mem_toList_iff.mp hv)
  · intro v hv
    obtain ⟨c, -, rfl⟩ := List.mem_map.mp hv
    exact hplain _ rfl
  · intro v hv
    obtain ⟨k, -, rfl⟩ := List.mem_map.mp hv
    exact hplain _ (by cases k <;> rfl)
  · rfl

end Value

/-! ## Built-in functions -/

namespace Action

open Run Store

variable {P : Value → Prop}

theorem refuseKeywords_yields (name : String) (known : List String)
    (keywords : List (String × Value)) :
    Yields (refuseKeywords name known keywords) fun _ => True := by
  unfold refuseKeywords
  split
  · rfl
  · trivial

theorem stringKeyword_yields (keywords : List (String × Value)) (name default : String) :
    Yields (stringKeyword keywords name default) fun _ => True := by
  unfold stringKeyword
  split
  · trivial
  · trivial
  · trivial
  · rfl

theorem onlyArgument_yields {Q : Value → Prop} (name : String) {args : List Value}
    (hargs : ∀ v ∈ args, Q v) : Yields (onlyArgument name args) Q := by
  unfold onlyArgument
  split
  · exact hargs _ (List.mem_singleton_self _)
  · rfl

theorem printValues_contained (args : List Value) (keywords : List (String × Value)) :
    Contained P (printValues args keywords) fun v => v.isVoid = true := by
  refine contained_bind (contained_ofExcept (stringKeyword_yields _ _ _)) fun sep _ => ?_
  refine contained_bind (contained_ofExcept (stringKeyword_yields _ _ _)) fun ending _ => ?_
  refine contained_bind (contained_ofExcept (refuseKeywords_yields _ _ _)) fun _ _ => ?_
  refine contained_bind (Q := fun _ => True) (contained_read fun _ _ => trivial) fun texts _ => ?_
  refine contained_bind (write_contained _) fun _ _ => ?_
  refine contained_bind (write_contained _) fun _ _ => ?_
  exact contained_pure rfl

theorem lengthIn_yields (s : Store) (v : Value) :
    Yields (lengthIn s v) fun v => v.isPlain = true := by
  unfold lengthIn
  split
  · split <;> rfl
  · rfl

theorem lengthOf_contained (args : List Value) (keywords : List (String × Value)) :
    Contained P (lengthOf args keywords) fun v => v.isPlain = true := by
  refine contained_bind (contained_ofExcept (refuseKeywords_yields _ _ _)) fun _ _ => ?_
  refine contained_bind (Q := fun _ => True)
    (contained_ofExcept (onlyArgument_yields _ fun _ _ => trivial)) fun v _ => ?_
  exact contained_readExcept fun s _ => lengthIn_yields s v

theorem bounds_yields (args : List Value) : Yields (args.mapM bound) fun _ => True := by
  induction args with
  | nil => trivial
  | cons v rest ih =>
    rw [List.mapM_cons]
    have hbound : Yields (bound v) fun _ => True := by
      unfold bound
      split
      · trivial
      · rfl
    exact hbound.bind fun n _ => ih.bind fun ns _ => trivial

theorem of_mem_integersBetween (hplain : ∀ v : Value, v.isPlain = true → P v) (start stop : Int) :
    ∀ v ∈ integersBetween start stop, P v := by
  intro v hv
  obtain ⟨i, -, rfl⟩ := List.mem_map.mp hv
  exact hplain _ rfl

theorem rangeOf_contained (hplain : ∀ v : Value, v.isPlain = true → P v) (args : List Value)
    (keywords : List (String × Value)) :
    Contained P (rangeOf args keywords) fun v => v.isPlain = true := by
  have hrest : ∀ start stop : Int, Contained P (do
      Run.ofExcept (Value.checkLength (stop - start).toNat)
      newList (integersBetween start stop).toArray) fun v => v.isPlain = true := by
    intro start stop
    refine contained_bind (contained_ofExcept (Value.checkLength_yields _)) fun _ _ => ?_
    apply newList_contained
    intro v hv
    exact of_mem_integersBetween hplain start stop v (List.mem_toArray.mp hv)
  refine contained_bind (contained_ofExcept (refuseKeywords_yields _ _ _)) fun _ _ => ?_
  refine contained_bind (contained_ofExcept (bounds_yields _)) fun bounds _ => ?_
  dsimp only
  split
  · exact hrest _ _
  · exact hrest _ _
  · exact contained_bind (Q := fun _ => False) (contained_fail rfl) fun _ h => h.elim

theorem pushTo_contained (list : ListId) {args : List Value}
    (hargs : ∀ v ∈ args, v.isVoid = false → P v) :
    Contained P (pushTo list args) fun v => v.isVoid = true := by
  refine contained_bind (contained_ofExcept (onlyArgument_yields _ hargs)) fun v hv => ?_
  split
  · exact contained_fail rfl
  · rename_i hvoid
    refine contained_bind (Q := fun _ => True) ?_ fun _ _ => contained_pure rfl
    intro s hs
    refine ⟨rfl, hs.modifyList list ?_, trivial⟩
    intro w hw
    rcases Array.mem_push.mp hw with hw | rfl
    · exact hs.lists list w hw
    · exact hv (by simpa using hvoid)

theorem popFrom_contained (list : ListId) (args : List Value) :
    Contained P (popFrom list args) P := by
  unfold popFrom
  split
  · refine contained_bind (Q := fun last => ∀ v ∈ last, P v) ?_ fun last hlast => ?_
    · refine contained_read fun s hs v hv => ?_
      exact hs.lists list v (Array.mem_of_back? hv)
    · split
      · exact contained_fail rfl
      · rename_i v
        refine contained_bind (Q := fun _ => True) ?_ fun _ _ => contained_pure (hlast v rfl)
        intro s hs
        refine ⟨rfl, hs.modifyList list ?_, trivial⟩
        intro w hw
        rw [← Array.mem_toList_iff, Array.toList_pop] at hw
        exact hs.lists list w (Array.mem_toList_iff.mp ((List.dropLast_subset _) hw))
  · exact contained_fail rfl

/-- A built-in function gives back nothing, or a value as the store holds them. -/
theorem call_contained (hplain : ∀ v : Value, v.isPlain = true → P v) (action : Action)
    {args : List Value} (hargs : ∀ v ∈ args, v.isVoid = false → P v)
    (keywords : List (String × Value)) :
    Contained P (action.call args keywords) fun v => v.isVoid = false → P v := by
  have hvoid : ∀ v : Value, v.isVoid = true → v.isVoid = false → P v := by
    intro v h h'
    rw [h] at h'
    cases h'
  cases action with
  | print => exact (printValues_contained args keywords).mono hvoid
  | len => exact (lengthOf_contained args keywords).mono fun v hv _ => hplain v hv
  | range => exact (rangeOf_contained hplain args keywords).mono fun v hv _ => hplain v hv
  | push list => exact (pushTo_contained list hargs).mono hvoid
  | pop list => exact (popFrom_contained list args).mono fun v hv _ => hv

end Action

/-! ## Parts of expressions -/

namespace Expr

theorem storable_yields {what : String} {v : Value} :
    Yields (storable what v) fun w => w = v ∧ v.isVoid = false := by
  unfold storable
  split
  · rfl
  · rename_i hvoid
    exact ⟨rfl, by simpa using hvoid⟩

theorem evalMember_contained {P : Value → Prop} (v : Value) (member : String) :
    Run.Contained P (evalMember v member) fun w => w.isPlain = true := by
  unfold evalMember
  split
  · split
    · exact Run.contained_bind Store.freshIdentity_contained fun _ _ => Run.contained_pure rfl
    · exact Run.contained_fail rfl
  · exact Run.contained_fail rfl

end Expr

end Offside
