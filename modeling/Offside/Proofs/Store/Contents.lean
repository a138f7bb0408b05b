import Offside.Evaluation
import Offside.Proofs.Store.Meets

/-!
# What the store holds

Operations on values move values around and make plain ones, but make no functions. So whatever
is true of plain values and of all values in the store stays true of them.
-/

namespace Offside

/-- Values that hold no functions and may be stored. -/
def Value.isPlain : Value → Bool
  | .void | .function _ | .classObject _ | .classInstance _ => false
  | _ => true

/-- The functions that a value holds. -/
def Value.functions : Value → List Function
  | .function f => [f]
  | .classObject c => c.methods
  | .classInstance i => i.ofClass.methods
  | _ => []

theorem Value.functions_of_isPlain {v : Value} (h : v.isPlain = true) : v.functions = [] := by
  cases v <;> first | rfl | cases h

theorem Value.functions_of_isVoid {v : Value} (h : v.isVoid = true) : v.functions = [] := by
  cases v <;> first | rfl | cases h

/-- Nothing is stored that is not as stated. -/
structure Store.Holds (P : Value → Prop) (s : Store) : Prop where
  frames : ∀ id, ∀ e ∈ s.frame id, ∀ v ∈ e.2.value, P v
  lists : ∀ id, ∀ v ∈ s.list id, P v
  dictionaries : ∀ id, ∀ e ∈ (s.dictionary id).entries, P e.2

/-- The faults of operations on values, as opposed to those of names, tests and jumps. -/
def Fault.ofOperation : Fault → Bool
  | .assertionFailed _ | .undeclaredVariable _ | .redeclaration _ | .immutableReassignment _
  | .uninitializedVariable _ | .returnOutsideFunction | .breakOutsideLoop
  | .continueOutsideLoop => false
  | _ => true

namespace Store

variable {P P' : Value → Prop} {s : Store}

theorem holds_true (s : Store) : s.Holds fun _ => True :=
  ⟨fun _ _ _ _ _ => trivial, fun _ _ _ => trivial, fun _ _ _ => trivial⟩

theorem Holds.mono (h : s.Holds P) (hP : ∀ v, P v → P' v) : s.Holds P' where
  frames id e he v hv := hP v (h.frames id e he v hv)
  lists id v hv := hP v (h.lists id v hv)
  dictionaries id e he := hP e.2 (h.dictionaries id e he)

theorem Holds.of_eq {s' : Store} (h : s.Holds P) (hframes : s'.frames = s.frames)
    (hlists : s'.lists = s.lists) (hdictionaries : s'.dictionaries = s.dictionaries) :
    s'.Holds P := by
  constructor
  · intro id
    unfold frame
    rw [hframes]
    exact h.frames id
  · intro id
    unfold list
    rw [hlists]
    exact h.lists id
  · intro id
    unfold dictionary
    rw [hdictionaries]
    exact h.dictionaries id

theorem getD_modify {α : Type} (items : Array α) (i j : Nat) (f : α → α) (default : α) :
    (items.modify i f).getD j default =
      if i = j ∧ j < items.size then f (items.getD j default) else items.getD j default := by
  simp only [Array.getD_eq_getD_getElem?, Array.getElem?_modify]
  by_cases hj : j < items.size
  · by_cases hij : i = j <;> simp [hj, hij]
  · simp [hj]

theorem getD_push {α : Type} (items : Array α) (a : α) (j : Nat) (default : α) :
    (items.push a).getD j default = if j = items.size then a else items.getD j default := by
  simp only [Array.getD_eq_getD_getElem?, Array.getElem?_push]
  split <;> rfl

theorem list_modifyList (s : Store) (id id' : ListId) (f : Array Value → Array Value) :
    (s.modifyList id f).list id' =
      if id.index = id'.index ∧ id'.index < s.lists.size then f (s.list id') else s.list id' :=
  getD_modify ..

theorem dictionary_modifyDictionary (s : Store) (id id' : DictionaryId)
    (f : Dictionary → Dictionary) :
    (s.modifyDictionary id f).dictionary id' =
      if id.index = id'.index ∧ id'.index < s.dictionaries.size then f (s.dictionary id')
      else s.dictionary id' :=
  getD_modify ..

theorem Holds.modifyList (h : s.Holds P) (id : ListId) {f : Array Value → Array Value}
    (hf : ∀ v ∈ f (s.list id), P v) : (s.modifyList id f).Holds P := by
  refine ⟨h.frames, ?_, h.dictionaries⟩
  intro id' v hv
  rw [list_modifyList] at hv
  split at hv
  · rename_i heq
    obtain rfl : id = id' := by
      cases id
      exact congrArg ListId.mk heq.1
    exact hf v hv
  · exact h.lists id' v hv

theorem Holds.modifyDictionary (h : s.Holds P) (id : DictionaryId) {f : Dictionary → Dictionary}
    (hf : ∀ e ∈ (f (s.dictionary id)).entries, P e.2) : (s.modifyDictionary id f).Holds P := by
  refine ⟨h.frames, h.lists, ?_⟩
  intro id' e he
  rw [dictionary_modifyDictionary] at he
  split at he
  · rename_i heq
    obtain rfl : id = id' := by
      cases id
      exact congrArg DictionaryId.mk heq.1
    exact hf e he
  · exact h.dictionaries id' e he

end Store

/-! ## Dictionaries -/

namespace Dictionary

variable {P : Value → Prop} {d : Dictionary}

theorem mem_insert {k : Key} {v : Value} {e : Key × Value} (he : e ∈ (d.insert k v).entries) :
    e.2 = v ∨ e ∈ d.entries := by
  unfold insert at he
  split at he
  · simp only [Array.mem_iff_getElem, Array.getElem_modify, Array.size_modify] at he ⊢
    obtain ⟨i, hi, rfl⟩ := he
    split
    · exact .inl rfl
    · exact .inr ⟨i, hi, rfl⟩
  · rcases Array.mem_push.mp he with he | rfl
    · exact .inr he
    · exact .inl rfl

theorem of_mem_ofList {entries : List (Key × Value)} (h : ∀ e ∈ entries, P e.2) :
    ∀ e ∈ (ofList entries).entries, P e.2 := by
  suffices hfold : ∀ d : Dictionary, (∀ e ∈ d.entries, P e.2) →
      ∀ e ∈ (entries.foldl (fun d e => d.insert e.1 e.2) d).entries, P e.2 from
    hfold empty (by simp [empty])
  induction entries with
  | nil => exact fun d hd => hd
  | cons first rest ih =>
    rw [List.forall_mem_cons] at h
    intro d hd
    apply ih h.2
    intro e he
    rcases mem_insert he with hv | he
    · rw [hv]
      exact h.1
    · exact hd e he

theorem of_get? {k : Key} {v : Value} (h : ∀ e ∈ d.entries, P e.2) (hget : d.get? k = some v) :
    P v := by
  rw [get?_eq_bind] at hget
  obtain ⟨i, -, hi⟩ := Option.bind_eq_some_iff.mp hget
  obtain ⟨e, he, rfl⟩ := Option.map_eq_some_iff.mp hi
  exact h e (Array.mem_of_getElem? he)

end Dictionary

end Offside
