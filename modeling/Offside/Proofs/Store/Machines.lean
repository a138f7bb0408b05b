import Offside.Machine
import Offside.Proofs.Store.Contents

/-!
# Stores of new machines

All that the store of a new machine holds is built-in functions.
-/

namespace Offside

theorem ProgramError.cause_ofFault (e : Fault) (st : Stmt) : (ofFault e st).cause = e := by
  cases e <;> rfl

namespace Machine

/-- A property of frames that holds of the empty one and stays when a built-in function is put in. -/
theorem builtins_induction {actions : List Action} (Q : Frame → List Action → Prop)
    (hnil : Q [] [])
    (hcons : ∀ frame seen action i, Q frame seen →
      Q (if frame.declares action.name then frame
        else (action.name, ⟨.builtin, some (.builtin ⟨i, action⟩)⟩) :: frame)
        (seen ++ [action])) :
    Q (builtins actions) actions := by
  have hfold : ∀ (pairs : List (Action × Nat)) frame seen, Q frame seen →
      Q (pairs.foldl (fun frame pair =>
        if frame.declares pair.1.name then frame
        else (pair.1.name, ⟨.builtin, some (.builtin ⟨pair.2, pair.1⟩)⟩) :: frame) frame)
        (seen ++ pairs.map Prod.fst) := by
    intro pairs
    induction pairs with
    | nil =>
      intro frame seen h
      rwa [List.map_nil, List.append_nil]
    | cons pair rest ih =>
      intro frame seen h
      rw [List.map_cons, List.append_cons]
      exact ih _ _ (hcons frame seen pair.1 pair.2 h)
  have h := hfold actions.zipIdx [] [] hnil
  rw [List.zipIdx_map_fst] at h
  exact h

theorem value_of_mem_builtins {actions : List Action} :
    ∀ e ∈ builtins actions, ∃ b, e.2.value = some (.builtin b) := by
  apply builtins_induction fun frame _ => ∀ e ∈ frame, ∃ b, e.2.value = some (.builtin b)
  · exact fun e he => nomatch he
  · intro frame _ action i ih
    split
    · exact ih
    · exact List.forall_mem_cons.mpr ⟨⟨_, rfl⟩, ih⟩

theorem holds_new {P : Value → Prop} (actions : List Action) (room : Option Nat)
    (hbuiltin : ∀ b, P (.builtin b)) : (new actions room).store.Holds P := by
  refine ⟨?_, ?_, ?_⟩
  · rintro ⟨index⟩ e he v hv
    cases index with
    | zero =>
      obtain ⟨b, hb⟩ := value_of_mem_builtins e he
      rw [hb] at hv
      cases hv
      exact hbuiltin b
    | succ index => exact nomatch he
  · intro id v hv
    exact absurd hv (Array.not_mem_empty v)
  · intro id e he
    exact absurd he (Array.not_mem_empty e)

end Machine

end Offside
