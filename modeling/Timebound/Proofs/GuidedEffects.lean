import Timebound.Program.Consistency
import Timebound.Proofs.CallExpansion
import Timebound.Proofs.CriticalFunctions
import Timebound.Proofs.EffectInlining

/-!
# Effects under the guided pass

The guided pass keeps the effects of every function of a consistent program that can be
analyzed. Critical functions are in the call order, so their calls go down in it; a
redrafted body then has the effects of the old one wherever it can be called from, and
its calls still go down. The certificate compares traces, which are the effects within a
budget, so it can fail for the size of a trace only.
-/

namespace Timebound

/-! ## Layers of a program -/

namespace Program

/-- The call order layers the calls of a program. -/
theorem callOrder_layered {program : Program} {order : List FunctionId}
    (ordered : program.callOrder = .ok order) :
    Layered program.function? order.idxOf order.length := by
  intro id function found inside callee called
  have settled := (callOrder_settled ordered).1
  have listed : id ∈ order.reverse := List.mem_reverse.mpr (List.idxOf_lt_length_iff.mp inside)
  have lower := settled.idxOf_lt listed found called
  rwa [List.reverse_reverse] at lower

/-- The effects of a function of a program are those that replace a call of it from
outside. -/
theorem view_effects? (program : Program) (id : FunctionId) :
    program.view.effects? id =
      (unfolding program.function? program.functions.slotCount [] id).map
        fun act => (act {}).finish :=
  View.effects?_eq program.findsBelow id

end Program

/-! ## Redrafted bodies -/

/-- Calls are layered, and every call passes an argument for each parameter. -/
structure Orderly (program : Program) (rank : FunctionId → Nat) (top : Nat) : Prop where
  /-- Functions below the top rank call themselves and functions of lower rank only. -/
  layered : Layered program.function? rank top
  /-- A call has as many arguments as its callee has parameters. -/
  arity : ∀ id function callee count target, program.function? id = some function →
    (callee, count) ∈ Block.callShapes function.body → program.function? callee = some target →
      count = target.params.length

/-- Consistent programs pass an argument for each parameter. -/
theorem Program.arity_of_consistent {program : Program} (consistent : program.fault? = none)
    {id callee : FunctionId} {function target : Function} {count : Nat}
    (found : program.function? id = some function)
    (called : (callee, count) ∈ Block.callShapes function.body)
    (existing : program.function? callee = some target) : count = target.params.length := by
  obtain ⟨args, node, rfl⟩ := Block.mem_callShapes.mp called
  have entry : (id, function) ∈ program.functions.entries := Arena.mem_entries.mpr found
  have faultless := List.findSome?_eq_none_iff.mp consistent (id, function) entry
  have nodes := (Option.or_eq_none_iff.mp faultless).1
  have alone := List.findSome?_eq_none_iff.mp nodes _ node
  simp only [Program.nodeFault?, existing] at alone
  split at alone
  · rename_i fits
    exact fits.symm
  · cases alone

/-- What a call may be replaced by: the body of another function that does not call
itself. -/
theorem Program.inlinable?_eq_some {program : Program} {caller id : FunctionId} {maxSize : Nat}
    {wanted : OrderedSet FunctionId} {target : Inlinable}
    (found : program.inlinable? caller maxSize wanted id = some target) :
    program.function? id = some target.function ∧ id ≠ caller ∧ id ∉ target.function.callees ∧
      Block.splitEnd target.function.body = (target.init, target.value) := by
  unfold Program.inlinable? at found
  simp only [Option.bind_eq_bind, Option.bind_eq_some_iff] at found
  obtain ⟨function, known, rest⟩ := found
  split at rest
  · rename_i allowed
    simp only [Bool.and_eq_true, bne_iff_ne, Bool.not_eq_true', Function.calls] at allowed
    simp only [Option.bind_eq_some_iff, Option.some.injEq] at rest
    obtain ⟨split, divided, rfl⟩ := rest
    have whole : Block.splitEnd function.body = split := by
      unfold Block.splitReturn? at divided
      simp only at divided
      split at divided
      · cases divided
      · exact Option.some.inj divided
    have plain : id ∉ function.callees := by
      have absent := allowed.1.1.2
      simpa using absent
    exact ⟨known, allowed.1.1.1.2, plain, whole⟩
  · cases rest

/-- A call is replaced by a body that returns at its end only, of a function with fewer
parameters than a call costs. -/
theorem Program.inlinable?_shape {program : Program} {caller id : FunctionId} {maxSize : Nat}
    {wanted : OrderedSet FunctionId} {target : Inlinable}
    (found : program.inlinable? caller maxSize wanted id = some target) :
    Block.returns target.init = false ∧ target.function.params.length < CycleCost.call := by
  unfold Program.inlinable? at found
  simp only [Option.bind_eq_bind, Option.bind_eq_some_iff] at found
  obtain ⟨function, _, rest⟩ := found
  split at rest
  · rename_i allowed
    simp only [Bool.and_eq_true, decide_eq_true_eq] at allowed
    simp only [Option.bind_eq_some_iff, Option.some.injEq] at rest
    obtain ⟨_, divided, rfl⟩ := rest
    unfold Block.splitReturn? at divided
    simp only [Option.ite_none_left_eq_some, Option.some.injEq] at divided
    obtain ⟨straight, rfl⟩ := divided
    exact ⟨by simpa using straight, allowed.2⟩
  · cases rest

section Redrafts

variable {program : Program} {rank : FunctionId → Nat} {top : Nat} {id : FunctionId}
  {function : Function}

/-- Expanding calls in a layer puts the bodies in place that the calls stand for. -/
theorem Orderly.faithful (orderly : Orderly program rank top)
    (found : program.function? id = some function) (inside : rank id < top)
    {active : List FunctionId} (below : Below rank top active id) (maxSize : Nat)
    (wanted : OrderedSet FunctionId) :
    Faithful (unfolding program.function? program.functions.slotCount (id :: active))
      (program.inlinable? id maxSize wanted) (Block.callShapes function.body) := by
  intro callee count target called allowed
  obtain ⟨known, apart, plain, whole⟩ := Program.inlinable?_eq_some allowed
  refine ⟨orderly.arity id function callee count target.function found called known, ?_⟩
  have isCallee : callee ∈ function.callees := by
    obtain ⟨args, node, _⟩ := Block.mem_callShapes.mp called
    exact Block.mem_callees.mpr ⟨args, node⟩
  have lower : rank callee < rank id :=
    (orderly.layered id function found inside callee isCallee).resolve_left apart
  have under : Below rank top (id :: active) callee :=
    (below.callee orderly.layered found isCallee).resolve_left apart
  have idle : callee ∉ id :: active := under.not_mem (by omega)
  unfold unfolding
  rw [expandCalls_of_found program.findsBelow known idle]
  -- below the callee it does not matter whether the callee itself is active
  have outside : Block.effects (unfolding program.function? program.functions.slotCount
        (callee :: id :: active)) target.function.body =
      Block.effects (unfolding program.function? program.functions.slotCount (id :: active))
        target.function.body := by
    refine Block.effects_congr _ fun inner args node => ?_
    have innerCalled : inner ∈ target.function.callees := Block.mem_callees.mpr ⟨args, node⟩
    have differs : inner ≠ callee := fun same => plain (same ▸ innerCalled)
    have deeper := (under.callee orderly.layered known innerCalled).resolve_left differs
    have innerLower := (orderly.layered callee target.function known (by omega) inner
      innerCalled).resolve_left differs
    exact expandCalls_active effects_dependsOnCallees program.findsBelow orderly.layered inner
      (by omega) deeper fun other listed => deeper other (List.mem_cons_of_mem _ listed)
  have divided (trace : Trace) := (Block.effects_splitEnd (unfolding program.function?
    program.functions.slotCount (id :: active)) target.function.body trace).1
  rw [whole] at divided
  refine congrArg some (outside.trans (funext divided))

namespace Guided

variable (tuning : Tuning) (analysis : Analysis)

/-- A redrafted body has the effects of the old one where the calls that may be
expanded are faithful. -/
theorem effects_redraft {opened : FunctionId → Option (Trace → Trace)}
    (faithful : Faithful opened (program.inlinable? id tuning.maxInlineSize
      (hotCallees tuning analysis id)) (Block.callShapes function.body)) :
    Block.effects opened (redraft tuning analysis program id function).body =
      Block.effects opened function.body := by
  have inlined := Block.effects_inline function.body function.inlineSites faithful
  have short : min tuning.unrollThreshold maxWrittenTrips ≤ maxWrittenTrips := Nat.min_le_right _ _
  unfold redraft Redraft.group Redraft.reorder Redraft.unroll Redraft.inline
  split_ifs <;> simp only [Block.effects_group, Block.effects_reorder,
    Block.effects_unroll opened short, inlined]

/-- A redrafted body has calls of the old one and of the bodies put into it. -/
theorem comesWith_of_redraft {shape : FunctionId × Nat}
    (listed : shape ∈ Block.callShapes (redraft tuning analysis program id function).body) :
    ComesWith (program.inlinable? id tuning.maxInlineSize (hotCallees tuning analysis id))
      (Block.callShapes function.body) shape := by
  have grouping (draft : Redraft) : Block.callShapes
      (if tuning.groupLoads then draft.group else draft).body ⊆ Block.callShapes draft.body := by
    split
    · exact Block.callShapes_group draft.body
    · exact List.Subset.refl _
  have ordering (draft : Redraft) : Block.callShapes
      (if tuning.reorderBranches then draft.reorder else draft).body ⊆
        Block.callShapes draft.body := by
    split
    · exact Block.callShapes_reorder draft.body
    · exact List.Subset.refl _
  have unrolling (draft : Redraft) (limit : Nat) : Block.callShapes
      (if tuning.unroll then draft.unroll limit function else draft).body ⊆
        Block.callShapes draft.body := by
    split
    · exact Block.callShapes_unroll limit _ draft.body
    · exact List.Subset.refl _
  have kept := unrolling _ _ (ordering _ (grouping _ listed))
  split at kept
  · exact Block.callShapes_inline function.body function.inlineSites shape kept
  · exact .inl kept

/-- Every call of a redrafted body comes from the old body or from the body of a function
that the old body calls. -/
theorem origin_of_redraft (found : program.function? id = some function)
    {shape : FunctionId × Nat}
    (listed : shape ∈ Block.callShapes (redraft tuning analysis program id function).body) :
    ∃ other owner, program.function? other = some owner ∧ shape ∈ Block.callShapes owner.body ∧
      (other = id ∨ (other ≠ id ∧ other ∈ function.callees)) := by
  rcases comesWith_of_redraft tuning analysis listed with
    old | ⟨callee, count, target, called, allowed, inner⟩
  · exact ⟨id, function, found, old, .inl rfl⟩
  · obtain ⟨known, apart, _, whole⟩ := Program.inlinable?_eq_some allowed
    have divided := (Block.effects_splitEnd (fun _ => none) target.function.body {}).2
    rw [whole] at divided
    obtain ⟨args, node, _⟩ := Block.mem_callShapes.mp called
    exact ⟨callee, target.function, known, divided ▸ inner,
      .inr ⟨apart, Block.mem_callees.mpr ⟨args, node⟩⟩⟩

end Guided

end Redrafts

/-! ## Replacing one body -/

/-- A program in which one function has a new body. -/
structure Rebodied (program changed : Program) (id : FunctionId) (function new : Function) :
    Prop where
  /-- The function as it was. -/
  found : program.function? id = some function
  /-- The new function stands in its place, and no other changes. -/
  lookup : ∀ other, changed.function? other =
    if other = id then some new else program.function? other
  /-- The parameters are the same. -/
  params : new.params = function.params
  /-- There are as many slots as before. -/
  slots : changed.functions.slotCount = program.functions.slotCount

namespace Rebodied

variable {program changed : Program} {id : FunctionId} {function new : Function}

/-- The new function. -/
theorem foundNew (rebodied : Rebodied program changed id function new) :
    changed.function? id = some new := by
  rw [rebodied.lookup, if_pos rfl]

/-- The other functions. -/
theorem unchanged (rebodied : Rebodied program changed id function new) {other : FunctionId}
    (apart : other ≠ id) : changed.function? other = program.function? other := by
  rw [rebodied.lookup, if_neg apart]

/-- All functions keep their parameters. -/
theorem params_eq (rebodied : Rebodied program changed id function new) (other : FunctionId) :
    (changed.function? other).map Function.params =
      (program.function? other).map Function.params := by
  by_cases same : other = id
  · rw [same, rebodied.foundNew, rebodied.found, Option.map_some, Option.map_some, rebodied.params]
  · rw [rebodied.unchanged same]

variable {rank : FunctionId → Nat} {top : Nat} {tuning : Tuning} {analysis : Analysis}

/-- A redrafted body keeps a program orderly. -/
theorem orderly (rebodied : Rebodied program changed id function new)
    (redrafted : new.body = (Guided.redraft tuning analysis program id function).body)
    (before : Orderly program rank top) (inside : rank id < top) : Orderly changed rank top := by
  constructor
  · intro other owner found within callee called
    by_cases same : other = id
    · subst same
      cases found.symm.trans rebodied.foundNew
      obtain ⟨args, node⟩ := Block.mem_callees.mp called
      have listed : (callee, args.length) ∈ Block.callShapes new.body :=
        Block.mem_callShapes.mpr ⟨args, node, rfl⟩
      rw [redrafted] at listed
      obtain ⟨source, body, known, shaped, place⟩ :=
        Guided.origin_of_redraft tuning analysis rebodied.found listed
      obtain ⟨passed, inner, _⟩ := Block.mem_callShapes.mp shaped
      have innerCalled : callee ∈ body.callees := Block.mem_callees.mpr ⟨passed, inner⟩
      rcases place with rfl | ⟨apart, direct⟩
      · exact before.layered _ body known inside callee innerCalled
      · have lower := (before.layered other function rebodied.found inside source
          direct).resolve_left apart
        rcases before.layered source body known (by omega) callee innerCalled with rfl | deeper
        · exact .inr lower
        · exact .inr (by omega)
    · rw [rebodied.unchanged same] at found
      exact before.layered other owner found within callee called
  · intro other owner callee count target found called existing
    have sameParams : (program.function? callee).map Function.params = some target.params := by
      rw [← rebodied.params_eq callee, existing, Option.map_some]
    obtain ⟨oldTarget, oldExisting, arityEq⟩ := Option.map_eq_some_iff.mp sameParams
    rw [← arityEq]
    by_cases same : other = id
    · subst same
      cases found.symm.trans rebodied.foundNew
      rw [redrafted] at called
      obtain ⟨source, body, known, shaped, _⟩ :=
        Guided.origin_of_redraft tuning analysis rebodied.found called
      exact before.arity source body callee count oldTarget known shaped oldExisting
    · rw [rebodied.unchanged same] at found
      exact before.arity other owner callee count oldTarget found called oldExisting

/-- A redrafted body changes no call, from wherever its function can be called. -/
theorem unfolding_eq (rebodied : Rebodied program changed id function new)
    (redrafted : new.body = (Guided.redraft tuning analysis program id function).body)
    (before : Orderly program rank top) (inside : rank id < top) (active : List FunctionId)
    (called : FunctionId) (below : called ∈ active ∨ Below rank top active called) :
    unfolding changed.function? program.functions.slotCount active called =
      unfolding program.function? program.functions.slotCount active called := by
  have after := rebodied.orderly redrafted before inside
  have findsNew := changed.findsBelow
  rw [rebodied.slots] at findsNew
  refine expandCalls_update effects_dependsOnCallees program.findsBelow findsNew after.layered
    (fun other => ?_) (fun active other owner newOwner found foundNew under => ?_) active called
    below
  · have kept := rebodied.params_eq other
    cases old : program.function? other <;> cases fresh : changed.function? other <;>
      simp [old, fresh] at kept ⊢
  · by_cases same : other = id
    · subst same
      cases found.symm.trans rebodied.found
      cases foundNew.symm.trans rebodied.foundNew
      have faithful := before.faithful rebodied.found inside under tuning.maxInlineSize
        (Guided.hotCallees tuning analysis other)
      have effects := Guided.effects_redraft tuning analysis faithful
      exact congrArg some (redrafted ▸ effects)
    · rw [rebodied.unchanged same, found] at foundNew
      cases foundNew
      rfl

end Rebodied

/-! ## Steps and runs of the pass -/

/-- A later program in which calls mean what they mean in an earlier one. -/
structure KeepsCalls (program later : Program) (rank : FunctionId → Nat) (top : Nat) : Prop where
  /-- There are as many slots. -/
  slots : later.functions.slotCount = program.functions.slotCount
  /-- Calls are still in order. -/
  orderly : Orderly later rank top
  /-- Calls are replaced by the same effects. -/
  same : ∀ active id, id ∈ active ∨ Below rank top active id →
    unfolding later.function? program.functions.slotCount active id =
      unfolding program.function? program.functions.slotCount active id

namespace Guided

variable (tuning : Tuning) (analysis : Analysis)

/-- A step that gives a function its redrafted body. -/
structure Rewrites (before after : Progress) (id : FunctionId) (function : Function)
    (change : Function → Function) : Prop where
  /-- The function as it was. -/
  found : before.program.function? id = some function
  /-- It gets the redrafted body. -/
  body : (change function).body = (redraft tuning analysis before.program id function).body
  /-- The body is a new one. -/
  differs : (change function).body ≠ function.body
  /-- It keeps its parameters. -/
  params : (change function).params = function.params
  /-- Outside code can enter it if it could before. -/
  isRoot : (change function).isRoot = function.isRoot
  /-- The function is changed in the program. -/
  updated : before.program.updateFunction? id change = some after.program
  /-- The function is reported. -/
  touched : after.touched = id :: before.touched
  /-- The change of size is reported. -/
  sized : after.outcome.sizeImpact = before.outcome.sizeImpact +
    ((Block.size (change function).body : Int) - function.size)
  /-- The old body has a trace. -/
  oldTrace : (before.program.view.effectTrace id).isSome = true
  /-- The new body has a trace. -/
  newTrace : (before.program.view.traceOfBody id (change function).body).isSome = true

/-- A step changes nothing, or it gives the function its redrafted body. -/
theorem step_cases (progress : Progress) (id : FunctionId) :
    step tuning analysis progress id = progress ∨ ∃ function change,
      Rewrites tuning analysis progress (step tuning analysis progress id) id function change := by
  unfold step
  cases found : progress.program.function? id with
  | none => exact .inl rfl
  | some function =>
    dsimp only
    split
    · exact .inl rfl
    · rename_i differs
      split
      · exact .inl rfl
      · rename_i traced
        simp only [Bool.or_eq_true, Option.isNone_iff_eq_none, not_or] at traced
        let draft := redraft tuning analysis progress.program id function
        let change : Function → Function := fun f =>
          { f with body := draft.body, inlineSites := draft.inlineSites }
        have updates : ∃ changed, progress.program.updateFunction? id change = some changed := by
          unfold Program.function? at found
          simp [Program.updateFunction?, Arena.update?, found]
        obtain ⟨changed, updated⟩ := updates
        have kept : (progress.keep id function draft).program =
            (progress.program.updateFunction? id change).getD progress.program := rfl
        have sized : (progress.keep id function draft).outcome.sizeImpact =
            progress.outcome.sizeImpact + ((Block.size draft.body : Int) - function.size) := by
          simp only [Progress.keep, Outcome.sizeImpact_count]
        refine .inr ⟨function, change, found, rfl, differs, rfl, rfl, ?_, rfl, sized,
          Option.isSome_iff_ne_none.mpr traced.1, Option.isSome_iff_ne_none.mpr traced.2⟩
        rw [kept, updated, Option.getD_some]

/-- A step touches no function but its own. -/
theorem step_touched (progress : Progress) (id : FunctionId) :
    (step tuning analysis progress id).touched ⊆ id :: progress.touched := by
  rcases step_cases tuning analysis progress id with idle | ⟨function, change, rewrites⟩
  · rw [idle]
    exact List.subset_cons_self _ _
  · rw [rewrites.touched]
    exact List.Subset.refl _

variable {tuning analysis}

/-- What each step on a function not touched before preserves is preserved by steps on distinct
functions, one after the other. -/
theorem foldl_step_induct {motive : Progress → Prop} {ids : List FunctionId}
    (distinct : ids.Nodup) {progress : Progress} (fresh : ∀ id ∈ ids, id ∉ progress.touched)
    (start : motive progress)
    (next : ∀ reached, ∀ id ∈ ids, id ∉ reached.touched → motive reached →
      motive (step tuning analysis reached id)) :
    motive (ids.foldl (step tuning analysis) progress) := by
  induction ids generalizing progress with
  | nil => exact start
  | cons id rest ih =>
    have ⟨notLater, restDistinct⟩ := List.nodup_cons.mp distinct
    have ⟨freshHere, freshLater⟩ := List.forall_mem_cons.mp fresh
    refine ih restDistinct (fun other listed touched => ?_)
      (next progress id List.mem_cons_self freshHere start)
      fun reached other listed => next reached other (List.mem_cons_of_mem _ listed)
    rcases List.mem_cons.mp (step_touched tuning analysis progress id touched) with rfl | older
    · exact notLater listed
    · exact freshLater other listed older

/-- What holds at the start and is preserved by each step on a critical function not touched
before holds when all changes are made. -/
theorem changeAll_induct {motive : Progress → Prop} {program : Program}
    (start : motive { program })
    (next : ∀ reached, ∀ id ∈ analysis.criticalFunctions.keys, id ∉ reached.touched →
      motive reached → motive (step tuning analysis reached id)) :
    motive (changeAll tuning analysis program) :=
  foldl_step_induct (Table.nodup_keys _) (fun _ _ => List.not_mem_nil) start next

/-- A rewriting step leaves a program with one new body. -/
theorem Rewrites.rebodied {before after : Progress} {id : FunctionId} {function : Function}
    {change : Function → Function}
    (rewrites : Rewrites tuning analysis before after id function change) :
    Rebodied before.program after.program id function (change function) := by
  refine ⟨rewrites.found, Program.function?_update rewrites.found rewrites.updated,
    rewrites.params, ?_⟩
  obtain ⟨functions, updated, made⟩ := Option.map_eq_some_iff.mp rewrites.updated
  rw [← made]
  exact Arena.slotCount_update updated

/-- A step keeps the meaning of calls. -/
theorem step_keepsCalls {program : Program} {rank : FunctionId → Nat} {top : Nat}
    {progress : Progress} {id : FunctionId} (keeps : KeepsCalls program progress.program rank top)
    (inside : rank id < top) :
    KeepsCalls program (step tuning analysis progress id).program rank top := by
  rcases step_cases tuning analysis progress id with idle | ⟨function, change, rewrites⟩
  · rw [idle]
    exact keeps
  · have rebodied := rewrites.rebodied
    constructor
    · rw [rebodied.slots, keeps.slots]
    · exact rebodied.orderly rewrites.body keeps.orderly inside
    · intro active called below
      have one := rebodied.unfolding_eq rewrites.body keeps.orderly inside active called below
      rw [keeps.slots] at one
      rw [one, keeps.same active called below]

/-! ## The record of the pass -/

/-- While a record is kept, it says how functions were and which ones were touched. -/
structure Recorded (program : Program) (progress : Progress) : Prop where
  /-- The record is open. -/
  recording : progress.program.functions.journal.isSome = true
  /-- It says how every function was. -/
  before : ∀ id, progress.program.functions.before? progress.program.functions.preImages id =
    program.function? id
  /-- It holds the functions that are reported as touched. -/
  touched : ∀ id, progress.program.functions.preImages.contains id = true ↔ id ∈ progress.touched

/-- A step is recorded. -/
theorem step_recorded {program : Program} {progress : Progress}
    (recorded : Recorded program progress) (id : FunctionId) :
    Recorded program (step tuning analysis progress id) := by
  rcases step_cases tuning analysis progress id with idle | ⟨function, change, rewrites⟩
  · rw [idle]
    exact recorded
  · obtain ⟨functions, updated, made⟩ := Option.map_eq_some_iff.mp rewrites.updated
    have journal := Arena.journal_update updated
    have before := Arena.before?_update recorded.recording updated
    have contained := Arena.contains_preImages_update recorded.recording updated
    constructor
    · rw [← made, journal]
      exact recorded.recording
    · intro other
      rw [← made, before other]
      exact recorded.before other
    · intro other
      rw [← made, rewrites.touched, contained other, recorded.touched, List.mem_cons]

variable (tuning analysis)

/-- The program that the pass leaves is the one with all changes made. -/
theorem transform_program (program : Program) :
    (transform tuning program analysis).1 = (changeAll tuning analysis program).program := by
  unfold transform
  dsimp only
  split <;> rfl

/-- The changes made by an execution of the pass. -/
def executed (program : Program) : Progress := changeAll tuning analysis program.openJournal

/-- An execution starts with an empty record and is recorded. -/
theorem executed_recorded (program : Program) :
    Recorded program (executed tuning analysis program) := by
  refine changeAll_induct ⟨rfl, fun id => rfl, fun id => ?_⟩
    fun _ id _ _ recorded => step_recorded recorded id
  simp [Program.openJournal, Arena.openJournal, Arena.preImages, Table.contains]

variable {tuning analysis} {program : Program} {earlier : Nat}

/-- An execution leaves the program with all changes made. -/
theorem execute_program :
    ((pass tuning).execute earlier program analysis).program =
      (executed tuning analysis program).program.closeJournal := by
  unfold Pass.execute pass executed
  rw [← transform_program]

/-- An execution reports the changes recorded. -/
theorem execute_changes :
    ((pass tuning).execute earlier program analysis).changes =
      (executed tuning analysis program).program.changes := by
  unfold Pass.execute pass executed
  rw [← transform_program]

/-- An execution reports the functions it touched. -/
theorem execute_touches_iff {id : FunctionId} :
    ((pass tuning).execute earlier program analysis).changes.touches id = true ↔
      id ∈ (executed tuning analysis program).touched := by
  rw [execute_changes]
  exact (executed_recorded tuning analysis program).touched id

/-- The certificate sees every function as it was. -/
theorem viewBefore_function? :
    (((pass tuning).execute earlier program analysis).changes.viewBefore
      ((pass tuning).execute earlier program analysis).program).function? = program.function? := by
  funext id
  rw [execute_changes, execute_program]
  exact (executed_recorded tuning analysis program).before id

/-! ## Effects and the certificate -/

variable {profile : Option Profile}

/-- An execution on a consistent program that can be analyzed keeps the meaning of
calls. -/
theorem executed_keepsCalls (tuning : Tuning) (consistent : program.fault? = none)
    (analyzed : program.analyze profile = .ok analysis) :
    ∃ rank top, KeepsCalls program (executed tuning analysis program).program rank top := by
  obtain ⟨order, ordered, critical⟩ := Program.mem_callOrder_of_critical analyzed
  have layered := Program.callOrder_layered ordered
  have start : KeepsCalls program program.openJournal order.idxOf order.length := by
    refine ⟨rfl, ⟨layered, ?_⟩, fun _ _ _ => rfl⟩
    intro id function callee count target found called existing
    exact Program.arity_of_consistent consistent found called existing
  refine ⟨order.idxOf, order.length, ?_⟩
  refine changeAll_induct (motive := fun reached => KeepsCalls program reached.program _ _) start
    fun _ id listed _ keeps => ?_
  exact step_keepsCalls keeps (List.idxOf_lt_length_iff.mpr (critical id listed))

/-- An execution keeps the effects of every function. -/
theorem execute_effects? (consistent : program.fault? = none)
    (analyzed : program.analyze profile = .ok analysis) (id : FunctionId) :
    ((pass tuning).execute earlier program analysis).program.view.effects? id =
      program.view.effects? id := by
  obtain ⟨rank, top, keeps⟩ := executed_keepsCalls tuning consistent analyzed
  have same := keeps.same [] id (.inr fun _ listed => absurd listed List.not_mem_nil)
  have after := (executed tuning analysis program).program.view_effects? id
  rw [keeps.slots, same, ← program.view_effects? id] at after
  rw [execute_program]
  exact after

/-- What the certificate takes as the trace before is the trace in the program before. -/
theorem viewBefore_eq (consistent : program.fault? = none)
    (analyzed : program.analyze profile = .ok analysis) (tuning : Tuning) (earlier : Nat)
    (id : FunctionId) :
    let run := (pass tuning).execute earlier program analysis
    (run.changes.viewBefore run.program).effects? id = program.view.effects? id ∧
      (run.changes.viewBefore run.program).work? id = program.view.work? id ∧
        (run.changes.viewBefore run.program).effectTrace id = program.view.effectTrace id := by
  intro run
  obtain ⟨rank, top, keeps⟩ := executed_keepsCalls tuning consistent analyzed
  have slots : run.program.functions.slotCount = program.functions.slotCount := by
    rw [execute_program]
    exact keeps.slots
  have enough : program.view.capacity ≤ (run.changes.viewBefore run.program).capacity := by
    have counted : (run.changes.viewBefore run.program).capacity =
        run.program.functions.slotCount + run.changes.functions.size := rfl
    rw [counted, slots]
    exact Nat.le_add_right _ _
  exact View.eq_of_function? viewBefore_function? program.findsBelow enough id

/-- Touched functions are the keys of the record. -/
theorem mem_keys_iff_touches {changes : Changes} {id : FunctionId} :
    id ∈ changes.functions.keys ↔ changes.touches id = true := Table.mem_keys

/-- The certificate wants a trace before and the same trace after, for every touched
function. -/
theorem certify_eq_true_iff {changes : Changes} {after : Program} :
    (pass tuning).certify changes after = true ↔ ∀ id, changes.touches id = true →
      ((changes.viewBefore after).effectTrace id).isSome = true ∧
        (changes.viewBefore after).effectTrace id = after.view.effectTrace id := by
  simp [pass, keepsTraces, mem_keys_iff_touches]

/-- The pass keeps the effects of every function of a consistent program that can be
analyzed. So its certificate is refused only if a touched function has no trace within
the budget, before or after. -/
theorem execute_keeps_effects (consistent : program.fault? = none)
    (analyzed : program.analyze profile = .ok analysis) (tuning : Tuning) (earlier : Nat) :
    let run := (pass tuning).execute earlier program analysis
    (∀ id, run.program.view.effects? id = program.view.effects? id) ∧
      ((pass tuning).certify run.changes run.program = true ↔
        ∀ id, run.changes.touches id = true →
          ((run.changes.viewBefore run.program).effectTrace id).isSome = true ∧
            (run.program.view.effectTrace id).isSome = true) := by
  intro run
  have kept (id : FunctionId) : run.program.view.effects? id = program.view.effects? id :=
    execute_effects? consistent analyzed id
  have seen (id : FunctionId) : (run.changes.viewBefore run.program).effects? id =
      program.view.effects? id := (viewBefore_eq consistent analyzed tuning earlier id).1
  refine ⟨kept, ?_⟩
  rw [certify_eq_true_iff]
  constructor
  · intro all id touched
    have ⟨present, same⟩ := all id touched
    exact ⟨present, same ▸ present⟩
  · intro all id touched
    have ⟨present, presentAfter⟩ := all id touched
    refine ⟨present, ?_⟩
    rw [View.effectTrace_of_isSome present, View.effectTrace_of_isSome presentAfter, seen, kept]

/-- An entry point that calls a function six times, which sends its argument and adds two
elements of a global, loaded in descending order. A result that is not sent is unlikely. -/
def relay : Program where
  functions.slots := [
    some {
      name := "total"
      params := [⟨"x", .u64⟩]
      body := [
        .bind "high" (.int .w32) (.load ⟨0⟩ (.lit (.ofInt .u64 1))),
        .bind "low" (.int .w32) (.load ⟨0⟩ (.lit (.ofInt .u64 0))),
        .emit 1 (.var "x"),
        .ret (some (.binary .add (.int .w32) (.var "low") (.var "high")))] },
    some {
      name := entryPoint
      body := [.loop (some "i") (.exact 6) none [
        .bind "sum" (.int .w32) (.call ⟨0⟩ [.var "i"]),
        .branch (.lit (.ofBool true)) [] [.emit 2 (.var "sum")] (some 100)]] }]
  globals.slots := [some { name := "pair", type := .int .w32, length := 2 }]

/-- The analysis of `relay`. -/
def relayAnalysis : Analysis := (relay.analyze none).toOption.getD {}

/-- The execution of the pass on `relay` with everything switched on. -/
def relayRun : Execution := (pass {}).execute 0 relay relayAnalysis

/-- Both functions of `relay` are rewritten: the call is expanded, the loop is unrolled,
the arms are swapped and the loads are grouped. The effects stay and the certificate is
given. -/
theorem execute_keeps_effects_relay :
    relay.fault? = none ∧ relay.analyze none = .ok relayAnalysis ∧
      relayRun.changes.functions.keys = [⟨0⟩, ⟨1⟩] ∧
      (∀ id, relayRun.program.view.effects? id = relay.view.effects? id) ∧
      (pass {}).certify relayRun.changes relayRun.program = true := by
  have consistent : relay.fault? = none := by decide +kernel
  have analyzed : relay.analyze none = .ok relayAnalysis := rfl
  have touched : relayRun.changes.functions.keys = [⟨0⟩, ⟨1⟩] := by decide +kernel
  have ⟨kept, certified⟩ := execute_keeps_effects consistent analyzed {} 0
  refine ⟨consistent, analyzed, touched, kept, certified.mpr fun id changed => ?_⟩
  have listed : id ∈ relayRun.changes.functions.keys := mem_keys_iff_touches.mpr changed
  rw [touched] at listed
  have traced : ∀ other ∈ [(⟨0⟩ : FunctionId), ⟨1⟩],
      ((relayRun.changes.viewBefore relayRun.program).effectTrace other).isSome = true ∧
        (relayRun.program.view.effectTrace other).isSome = true := by decide +kernel
  exact traced id listed

end Guided

end Timebound
