import Mathlib.Data.List.Pairwise
import Offside.Proofs.Closures.Definitions
import Offside.Proofs.Logic.Soundness
import Offside.Proofs.Store.Edits
import Offside.Proofs.Store.Machines
import Offside.Proofs.Trace.Erasure

/-!
# Closures are isolated

The frames that a definition closes over are its own: neither the scope it was executed in nor any
other definition has them. From then on they change only by assignments to names in the body of the
function, or of a method of the class, while it is called.
-/

namespace Offside

open Run

/-! ## Situations -/

/-- What a run has defined so far, and the store that it has come to. -/
structure Situation where
  definitions : List Definition
  store : Store

namespace Situation

/-- The functions of the store come from the definitions, whose closures share no frame. -/
structure Valid (w : Situation) : Prop where
  hasScope : ∀ d ∈ w.definitions, w.store.HasScope d.closure
  disjoint : w.definitions.Pairwise Definition.Disjoint
  holds : w.store.Holds (Value.IsFrom w.definitions)

/-- What is defined later has no frame that was there before. -/
structure Extends (w w' : Situation) : Prop where
  size : w.store.frames.size ≤ w'.store.frames.size
  subset : w.definitions ⊆ w'.definitions
  fresh : ∀ d ∈ w'.definitions, d ∈ w.definitions ∨ ∀ id ∈ d.closure.chain, ¬ w.store.HasFrame id

/-- The scope has no frame of a closure but of those on top of which it was opened. -/
structure Allows (w : Situation) (scope : Scope) (s : Stmt) : Prop where
  hasScope : w.store.HasScope scope
  innermost : ∀ d ∈ w.definitions, scope.innermost ∉ d.closure.chain
  apart : ∀ d ∈ w.definitions, d.closure.chain.Disjoint scope.chain ∨ d.Encloses scope s

structure Opens (w : Situation) (scope inner : Scope) : Prop where
  outer : inner.outer = scope.chain
  hasFrame : w.store.HasFrame inner.innermost
  innermost : ∀ d ∈ w.definitions, inner.innermost ∉ d.closure.chain

/-- The situation after the steps of a log. -/
def after (w : Situation) (log : List Step) (s : Store) : Situation :=
  ⟨w.definitions ++ log.filterMap Step.definition?, s⟩

theorem after_append (w : Situation) (log log' : List Step) (s s' : Store) :
    w.after (log ++ log') s' = (w.after log s).after log' s' := by
  unfold after
  rw [List.filterMap_append, List.append_assoc]

variable {w w' w'' : Situation} {scope inner : Scope} {s : Stmt}

namespace Extends

theorem refl (w : Situation) : w.Extends w := ⟨Nat.le_refl _, List.Subset.refl _, fun _ => .inl⟩

theorem hasFrame {id : FrameId} (h : w.Extends w') (hid : w.store.HasFrame id) :
    w'.store.HasFrame id :=
  Nat.lt_of_lt_of_le hid h.size

theorem trans (h : w.Extends w') (h' : w'.Extends w'') : w.Extends w'' := by
  refine ⟨Nat.le_trans h.size h'.size, List.Subset.trans h.subset h'.subset, fun d hd => ?_⟩
  rcases h'.fresh d hd with hd | hd
  · exact h.fresh d hd
  · exact .inr fun id hid hframe => hd id hid (h.hasFrame hframe)

theorem not_mem {id : FrameId} (h : w.Extends w') (hframe : w.store.HasFrame id)
    (hid : ∀ d ∈ w.definitions, id ∉ d.closure.chain) :
    ∀ d ∈ w'.definitions, id ∉ d.closure.chain := by
  intro d hd
  rcases h.fresh d hd with hd | hd
  · exact hid d hd
  · exact fun hmem => hd id hmem hframe

end Extends

theorem Allows.mono (h : w.Allows scope s) (hw : w.Extends w') : w'.Allows scope s := by
  refine ⟨fun id hid => hw.hasFrame (h.hasScope id hid), ?_, fun d hd => ?_⟩
  · exact hw.not_mem (h.hasScope _ List.mem_cons_self) h.innermost
  · rcases hw.fresh d hd with hd | hd
    · exact h.apart d hd
    · exact .inl fun id hid hscope => hd id hid (h.hasScope id hscope)

theorem Opens.mono (h : w.Opens scope inner) (hw : w.Extends w') : w'.Opens scope inner :=
  ⟨h.outer, hw.hasFrame h.hasFrame, hw.not_mem h.hasFrame h.innermost⟩

theorem Opens.disjoint (h : w.Opens scope inner) {d : Definition} (hd : d ∈ w.definitions)
    (hscope : d.closure.chain.Disjoint scope.chain) : d.closure.chain.Disjoint inner.chain := by
  intro id hid hinner
  rcases List.mem_cons.mp hinner with rfl | hinner
  · exact h.innermost d hd hid
  · rw [h.outer] at hinner
    exact hscope hid hinner

/-- Blocks are executed in scopes inside that of their statement. -/
theorem Allows.enter {outer : Stmt} {body : Block} (h : w.Allows scope outer)
    (hinner : w.Opens scope inner) (hbody : body ∈ outer.blocks) (hs : s ∈ body) :
    w.Allows inner s := by
  refine ⟨?_, hinner.innermost, fun d hd => ?_⟩
  · unfold Store.HasScope Scope.chain
    rw [List.forall_mem_cons, hinner.outer]
    exact ⟨hinner.hasFrame, h.hasScope⟩
  · rcases h.apart d hd with hdisjoint | hencloses
    · exact .inl (hinner.disjoint hd hdisjoint)
    · refine .inr ⟨?_, ?_⟩
      · rw [hinner.outer]
        exact hencloses.isSuffix.trans (List.suffix_cons ..)
      · obtain ⟨block, hblock, hin⟩ := hencloses.isIn
        exact ⟨block, hblock, hin.nested hbody hs⟩

/-- The next frame that the store gets belongs to no closure. -/
theorem Valid.not_mem_size (h : w.Valid) :
    ∀ d ∈ w.definitions, (⟨w.store.frames.size⟩ : FrameId) ∉ d.closure.chain :=
  fun d hd hid => Nat.lt_irrefl _ (h.hasScope d hd _ hid)

theorem Valid.opens {s' : Store} (h : w.Valid)
    (hinner : inner = ⟨⟨w.store.frames.size⟩, scope.chain⟩) (hframe : s'.HasFrame inner.innermost) :
    Situation.Opens ⟨w.definitions, s'⟩ scope inner := by
  subst hinner
  exact ⟨rfl, hframe, h.not_mem_size⟩

/-- The body of a function is executed on top of what it closed over, and apart from all others. -/
theorem Valid.allows_body (h : w.Valid) {f : Function} {id : FrameId}
    (hf : Value.IsFrom w.definitions (.function f)) (hframe : w.store.HasFrame id)
    (hid : ∀ d ∈ w.definitions, id ∉ d.closure.chain) (hs : s ∈ f.definition.body) :
    w.Allows ⟨id, f.closure.chain⟩ s := by
  obtain ⟨d, hd, hclosure, hbody⟩ := hf f (List.mem_singleton_self f)
  rw [hclosure]
  refine ⟨List.forall_mem_cons.mpr ⟨hframe, h.hasScope d hd⟩, hid, fun d' hd' => ?_⟩
  by_cases heq : d' = d
  · subst heq
    exact .inr ⟨List.suffix_refl _, _, hbody, .direct hs⟩
  · have hdisjoint : d'.Disjoint d :=
      h.disjoint.forall hd' hd heq
    refine .inl fun id' hid' hscope => ?_
    rcases List.mem_cons.mp hscope with rfl | hscope
    · exact hid d' hd' hid'
    · exact hdisjoint hid' hscope

end Situation

/-! ## Runs -/

/-- A logic of runs from valid situations, in which every step respects the closures. -/
def isolation : Logic Traced where
  World := Situation
  Ensures t w x Q := w.Valid → Isolated w.definitions (x.log t w.store) ∧
    ∀ a s, x.run w.store = .done a s →
      (w.after (x.log t w.store) s).Valid ∧ w.Extends (w.after (x.log t w.store) s) ∧
        Q (w.after (x.log t w.store) s) a
  Extends := Situation.Extends
  Stores w v := v.IsFrom w.definitions
  Allows w _ scope s := w.Allows scope s
  Opens w scope _ inner := w.Opens scope inner
  confined := False

namespace isolation

variable {α β : Type} {t : Task} {w : Situation} {r : Run α} {ids : List FrameId}
  {T : α → Store → Prop} {Q : Situation → α → Prop}

theorem after_step (w : Situation) (t : Task) (s s' : Store) :
    w.after [⟨t, s, s'⟩] s' = ⟨w.definitions ++ (t.definition? s).toList, s'⟩ := by
  unfold Situation.after
  rw [Isolated.definitions_cons, List.filterMap_nil, List.append_nil]
  rfl

theorem no_writes : ∀ d ∈ w.definitions, ∀ id ∈ d.closure.chain, id ∈ [] → t.AssignsWithin d :=
  fun _ _ _ _ => nofun

variable (hscope : ∀ d ∈ t.definition? w.store, w.store.HasScope d.scope)
  (hids : ∀ d ∈ w.definitions, ∀ id ∈ d.closure.chain, id ∈ ids → t.AssignsWithin d)

include hscope hids in
/-- A step that edits no frame of a closure, unless it assigns to a name within the function. -/
theorem respects_of_edits {s : Store} (hw : w.Valid)
    (hedits : w.store.Edits (Value.IsFrom (w.definitions ++ (t.definition? w.store).toList)) ids s) :
    Step.Respects ⟨t, w.store, s⟩ w.definitions where
  spares d hd id hid := by
    by_cases hmem : id ∈ ids
    · exact .inr (hids d hd id hid hmem)
    · exact .inl (hedits.keeps.same id (hw.hasScope d hd id hid) hmem)
  scope d hd id hid hmem := Task.not_hasFrame_of_definition? hd id hid (hscope d hd id hmem)
  disjoint d hd d' hd' id hid hid' :=
    Task.not_hasFrame_of_definition? hd' id hid' (hw.hasScope d hd id hid)
  holds := hedits.holds (hw.holds.mono fun v hv => hv.mono (List.subset_append_left ..))

/-- The situation after an edit, where what is defined by it is in the store. -/
theorem valid_of_edits {s : Store} (hw : w.Valid)
    (hedits : w.store.Edits (Value.IsFrom (w.definitions ++ (t.definition? w.store).toList)) ids s)
    (hnew : ∀ d ∈ t.definition? w.store, s.HasScope d.closure) :
    Situation.Valid ⟨w.definitions ++ (t.definition? w.store).toList, s⟩ where
  hasScope d hd := by
    rcases List.mem_append.mp hd with hd | hd
    · exact hedits.keeps.hasScope (hw.hasScope d hd)
    · exact hnew d (Option.mem_toList.mp hd)
  disjoint := by
    rw [List.pairwise_append]
    refine ⟨hw.disjoint, ?_, fun d hd d' hd' id hid hid' => ?_⟩
    · cases t.definition? w.store with
      | none => exact .nil
      | some d => exact List.pairwise_singleton ..
    · exact Task.not_hasFrame_of_definition? (Option.mem_toList.mp hd') id hid' (hw.hasScope d hd id hid)
  holds := hedits.holds (hw.holds.mono fun v hv => hv.mono (List.subset_append_left ..))

theorem extends_of_edits {P : Value → Prop} {s : Store} (hedits : w.store.Edits P ids s) :
    w.Extends ⟨w.definitions ++ (t.definition? w.store).toList, s⟩ where
  size := hedits.keeps.size
  subset := List.subset_append_left ..
  fresh _ hd := (List.mem_append.mp hd).imp_right fun hd =>
    Task.not_hasFrame_of_definition? (Option.mem_toList.mp hd)

include hscope hids in
theorem ensures_step
    (hedits : w.Valid →
      r.Edits (Value.IsFrom (w.definitions ++ (t.definition? w.store).toList)) ids w.store
        fun a s => T a s ∧ ∀ d ∈ t.definition? w.store, s.HasScope d.closure)
    (hQ : ∀ a s, w.Valid → T a s →
      Situation.Valid ⟨w.definitions ++ (t.definition? w.store).toList, s⟩ →
      Q ⟨w.definitions ++ (t.definition? w.store).toList, s⟩ a) :
    isolation.Ensures t w (liftM r) Q := by
  intro hw
  have h := hedits hw
  show Isolated w.definitions ((liftM r : Traced α).log t w.store) ∧ ∀ a s, r w.store = .done a s → _
  rw [Traced.log_liftM]
  cases hr : r w.store with
  | done a s =>
    obtain ⟨hs, ha, hnew⟩ := h.of_done hr
    refine ⟨⟨respects_of_edits hscope hids hw hs, trivial⟩, ?_⟩
    rintro _ _ ⟨⟩
    rw [after_step]
    have hvalid := valid_of_edits hw hs hnew
    exact ⟨hvalid, extends_of_edits hs, hQ a s hw ha hvalid⟩
  | failed e s =>
    exact ⟨⟨respects_of_edits hscope hids hw (h.of_failed hr).1, trivial⟩, nofun⟩
  | outOfFuel => exact ⟨trivial, nofun⟩

/-- A step of a task that defines nothing. -/
theorem ensures_of_edits (ids : List FrameId) (ht : t.defines = false)
    (hids : ∀ d ∈ w.definitions, ∀ id ∈ d.closure.chain, id ∈ ids → t.AssignsWithin d)
    (hedits : w.Valid → r.Edits (Value.IsFrom w.definitions) ids w.store T)
    (hQ : ∀ a s, w.Valid → T a s → Situation.Valid ⟨w.definitions, s⟩ → Q ⟨w.definitions, s⟩ a) :
    isolation.Ensures t w (liftM r) Q := by
  have hnone : t.definition? w.store = none := Task.definition?_eq_none ht
  have hsame : w.definitions ++ (t.definition? w.store).toList = w.definitions := by
    rw [hnone, Option.toList_none, List.append_nil]
  refine ensures_step (T := T) ?_ hids ?_ ?_
  · rw [hnone]
    exact nofun
  · rw [hsame, hnone]
    exact fun hw => (hedits hw).imp fun _ _ _ ha => ⟨ha, nofun⟩
  · rw [hsame]
    exact hQ

theorem ensures_fail (ht : t.defines = false) (e : Fault) :
    isolation.Ensures t w (liftM (fail e : Run α)) Q := by
  intro hw
  have hnone : t.definition? w.store = none := Task.definition?_eq_none ht
  have hrespects : Step.Respects ⟨t, w.store, w.store⟩ w.definitions := by
    refine respects_of_edits ?_ no_writes hw .refl
    rw [hnone]
    exact nofun
  exact ⟨⟨hrespects, trivial⟩, nofun⟩

theorem ensures_pure {a : α} (h : Q w a) : isolation.Ensures t w (pure a) Q := by
  intro hw
  refine ⟨trivial, ?_⟩
  rintro _ _ ⟨⟩
  have hafter : w.after [] w.store = w := by
    unfold Situation.after
    rw [List.filterMap_nil, List.append_nil]
  show (w.after [] w.store).Valid ∧ w.Extends (w.after [] w.store) ∧ Q (w.after [] w.store) a
  rw [hafter]
  exact ⟨hw, .refl w, h⟩

theorem ensures_bind {x : Traced α} {f : α → Traced β} {R : Situation → β → Prop}
    (hx : isolation.Ensures t w x Q)
    (hf : ∀ w' a, w.Extends w' → Q w' a → isolation.Ensures t w' (f a) R) :
    isolation.Ensures t w (x >>= f) R := by
  intro hw
  obtain ⟨hlog, hvalue⟩ := hx hw
  show Isolated w.definitions (x.log t w.store ++ Traced.logAfter f t (x.run w.store)) ∧
    ∀ b s, (x.run >>= fun a => (f a).run) w.store = .done b s →
      (w.after (x.log t w.store ++ Traced.logAfter f t (x.run w.store)) s).Valid ∧
      w.Extends (w.after (x.log t w.store ++ Traced.logAfter f t (x.run w.store)) s) ∧
        R (w.after (x.log t w.store ++ Traced.logAfter f t (x.run w.store)) s) b
  rw [bind_apply]
  cases hrun : x.run w.store with
  | done a s =>
    obtain ⟨hvalid, hextends, ha⟩ := hvalue a s hrun
    obtain ⟨hlog', hvalue'⟩ := hf _ a hextends ha hvalid
    refine ⟨hlog.append hlog', fun b s' hrun' => ?_⟩
    obtain ⟨hvalid', hextends', hb⟩ := hvalue' b s' hrun'
    rw [Situation.after_append]
    exact ⟨hvalid', hextends.trans hextends', hb⟩
  | failed e s =>
    show Isolated w.definitions (x.log t w.store ++ []) ∧ _
    rw [List.append_nil]
    exact ⟨hlog, nofun⟩
  | outOfFuel =>
    show Isolated w.definitions (x.log t w.store ++ []) ∧ _
    rw [List.append_nil]
    exact ⟨hlog, nofun⟩

/-- Frames that belong to no closure may be edited by any task. -/
theorem not_mem_of_innermost {id : FrameId} (hid : ∀ d ∈ w.definitions, id ∉ d.closure.chain) :
    ∀ d ∈ w.definitions, ∀ id' ∈ d.closure.chain, id' ∈ [id] → t.AssignsWithin d := by
  intro d hd id' hid' hmem
  rw [List.mem_singleton.mp hmem] at hid'
  exact absurd hid' (hid d hd)

/-- An assignment to a name that may change closures is within each of those functions. -/
theorem assignsWithin_of_allows {scope inner : Scope} {s : Stmt} (hassigns : s.assignsName = true)
    (hs : w.Allows scope s)
    (hinner : ∀ d ∈ w.definitions, d.closure.chain.Disjoint scope.chain →
      d.closure.chain.Disjoint inner.chain) :
    ∀ d ∈ w.definitions, ∀ id ∈ d.closure.chain, id ∈ inner.chain →
      (Task.executing scope s).AssignsWithin d := by
  intro d hd id hid hmem
  rcases hs.apart d hd with hdisjoint | hencloses
  · exact absurd hmem (hinner d hd hdisjoint hid)
  · exact ⟨scope, s, rfl, hassigns, hencloses⟩

/-- A definition writes to the scope it is executed in and to the closure that it makes. -/
theorem ensures_definition {scope : Scope} {s : Stmt} {r : Run Unit} (bodies : List Block)
    (hs : w.Allows scope s)
    (hnew : (Task.executing scope s).definition? w.store =
      some ⟨scope, scope.copyAt w.store.frames.size, bodies⟩)
    (hedits : ∀ P : Value → Prop, w.store.Holds P →
      (∀ v : Value, (∀ f ∈ v.functions, f.closure = scope.copyAt w.store.frames.size ∧
        f.definition.body ∈ bodies) → P v) →
      r.Edits P [scope.innermost] w.store fun _ s' =>
        s'.HasScope (scope.copyAt w.store.frames.size)) :
    isolation.Ensures (.executing scope s) w (liftM r) fun _ _ => True := by
  refine ensures_step (T := fun _ _ => True) ?_
    (not_mem_of_innermost hs.innermost) ?_ fun _ _ _ _ _ => trivial
  · rw [hnew]
    rintro _ ⟨⟩
    exact hs.hasScope
  · rw [hnew]
    intro hw
    refine (hedits _ (hw.holds.mono fun v hv => hv.mono (List.subset_append_left ..)) ?_).imp ?_
    · intro v hv f hf
      exact ⟨_, List.mem_append_right _ (List.mem_singleton_self _), hv f hf⟩
    · rintro _ s' - hclosure
      refine ⟨trivial, ?_⟩
      rintro _ ⟨⟩
      exact hclosure

theorem rules : isolation.Rules where
  imp h hQ hw := by
    obtain ⟨hlog, hvalue⟩ := h hw
    refine ⟨hlog, fun a s hrun => ?_⟩
    obtain ⟨hvalid, hextends, ha⟩ := hvalue a s hrun
    exact ⟨hvalid, hextends, hQ _ a hextends ha⟩
  pure := ensures_pure
  bind := ensures_bind
  outOfFuel _ := ⟨trivial, nofun⟩
  stores_mono hw hv := hv.mono hw.subset
  stores_plain := Value.isFrom_of_isPlain
  stores_instance _ hv := hv
  allows_mono hw hs := hs.mono hw
  opens_mono hw hinner := hinner.mono hw
  operation ht h :=
    ensures_of_edits [] ht no_writes (fun hw => h.edits hw.holds) fun _ _ _ ha _ => ha
  get ht :=
    ensures_of_edits [] ht no_writes (fun hw => Scope.get_edits hw.holds)
      fun _ _ _ hv _ => hv
  lookup ht :=
    ensures_of_edits [] ht no_writes (fun _ => Scope.lookup_edits)
      fun _ _ _ _ _ => trivial
  assign {_ _ scope _ _ _} hs hv :=
    ensures_of_edits scope.chain rfl (assignsWithin_of_allows rfl hs fun _ _ => id)
      (fun _ => Scope.assign_edits hv (List.Subset.refl _)) fun _ _ _ _ _ => trivial
  declare {_ _ scope _ _} hs :=
    ensures_of_edits [scope.innermost] rfl (not_mem_of_innermost hs.innermost)
      (fun _ => Scope.declare_edits (List.mem_singleton_self _)) fun _ _ _ _ _ => trivial
  defineFunction {_ _ _ definition} hs := by
    refine ensures_definition [definition.body] hs rfl fun P hP hf => ?_
    refine Stmt.defineFunction_edits hP
      ⟨List.mem_singleton_self _, .inl (hs.hasScope _ List.mem_cons_self)⟩ fun identity => hf _ ?_
    exact List.forall_mem_singleton.mpr ⟨rfl, List.mem_singleton_self _⟩
  defineClass {_ _ _ _ methods} hs := by
    refine ensures_definition (methods.map FunctionDef.body) hs rfl fun P hP hf => ?_
    refine Stmt.defineClass_edits hP
      ⟨List.mem_singleton_self _, .inl (hs.hasScope _ List.mem_cons_self)⟩ fun c hc => hf _ ?_
    exact fun f hmem => ⟨(hc f hmem).1, List.mem_map_of_mem (hc f hmem).2⟩
  child hs hbody :=
    ensures_of_edits [] (Task.defines_of_mem_blocks hbody) no_writes
      (fun _ => Scope.child_edits) fun _ _ hw hinner _ => hw.opens hinner.1 hinner.2
  bindLoopVariable {_ _ _ inner binder _ _ _} hs hinner hitem := by
    cases binder with
    | name n =>
      exact ensures_of_edits inner.chain rfl
        (assignsWithin_of_allows rfl hs fun d hd => hinner.disjoint hd)
        (fun _ => Scope.assign_edits hitem (List.Subset.refl _)) fun _ _ _ _ _ => trivial
    | declared n isMutable =>
      exact ensures_of_edits [inner.innermost] rfl (not_mem_of_innermost hinner.innermost)
        (fun _ => Scope.define_edits ⟨List.mem_singleton_self _, .inl hinner.hasFrame⟩ hitem)
        fun _ _ _ _ _ => trivial
  enter hs hinner hbody hmem := hs.enter hinner hbody hmem
  bindArguments ht hf hargs hkeywords :=
    ensures_of_edits [] ht no_writes
      (fun _ => Function.bindArguments_edits hargs hkeywords) fun _ _ hw hinner hw' _ hs => by
        obtain ⟨rfl, hframe⟩ := hinner
        exact hw'.allows_body hf hframe hw.not_mem_size hs
  jumps _ h _ := h.elim
  escapes {_ _ _ e _} ht _ hflow := by
    rw [hflow]
    exact ensures_fail ht e
  assertionFailed := ensures_fail rfl _

end isolation

/-! ## Whole programs -/

/-- Where the globals are no part of a closure, every step of a program respects the closures. -/
theorem Program.steps_isolated {w : Situation} (fuel : Nat) (globals : Scope) (p : Program)
    (hw : w.Valid) (hglobals : ∀ s, w.Allows globals s) :
    Isolated w.definitions (p.steps fuel globals w.store) := by
  induction p generalizing w with
  | nil => exact trivial
  | cons st rest ih =>
    obtain ⟨hlog, hvalue⟩ := (isolation.rules.trace (fun h => h) fuel).2 (.executing globals st) w
      .topLevel globals st (hglobals st) hw
    rw [(run_trace fuel).2] at hvalue
    refine hlog.append ?_
    unfold Stmt.execTopLevel
    rw [bind_apply]
    cases hexec : st.exec fuel globals w.store with
    | done flow s =>
      obtain ⟨hvalid, hextends, -⟩ := hvalue flow s hexec
      cases flow with
      | normal => exact ih hvalid fun s => (hglobals s).mono hextends
      | returning v => exact trivial
      | breaking => exact trivial
      | continuing => exact trivial
    | failed e s => exact trivial
    | outOfFuel => exact trivial

theorem Machine.valid_new (actions : List Action) (room : Option Nat) :
    Situation.Valid ⟨[], (new actions room).store⟩ where
  hasScope := nofun
  disjoint := .nil
  holds := holds_new actions room fun _ => Value.isFrom_of_isPlain rfl

theorem Machine.allows_globals (actions : List Action) (room : Option Nat) (s : Stmt) :
    Situation.Allows ⟨[], (new actions room).store⟩ (new actions room).globals s where
  hasScope := List.forall_mem_singleton.mpr Nat.zero_lt_one
  innermost := nofun
  apart := nofun

/-- On a new machine, the steps of a program lead to its end, and of the definitions among them each
closes over frames apart from those of its own scope and of all other closures. Every later step
spares them, and all functions in the store come from these definitions. -/
theorem Program.closures_isolated (actions : List Action) (room : Option Nat) (fuel : Nat)
    (p : Program) :
    let machine := Machine.new actions room
    let log := p.steps fuel machine.globals machine.store
    (Program.run fuel machine.globals p machine.store).IsReached machine.store log ∧
      (∀ step ∈ log, ∀ d ∈ step.definition?, d.closure.chain.Disjoint d.scope.chain) ∧
      (log.Pairwise fun earlier later => ∀ d ∈ earlier.definition?,
        later.Spares d ∧ ∀ d' ∈ later.definition?, d.Disjoint d') ∧
      ∀ step ∈ log, step.after.Holds (Value.IsFrom (log.filterMap Step.definition?)) := by
  have h := Program.steps_isolated fuel (Machine.new actions room).globals p
    (Machine.valid_new actions room) (Machine.allows_globals actions room)
  exact ⟨p.isReached_steps fuel _ _, h.scope, h.pairwise, h.holds⟩

end Offside
