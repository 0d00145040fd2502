import Timebound.Proofs.DeadRemoval
import Timebound.Proofs.EntryTotals
import Timebound.Proofs.FoldingMeaning
import Timebound.Proofs.FoldingSize
import Timebound.Proofs.GuidedEffects

/-!
# What passes report

A pass reports whether it changed the program and by how much the size changed. The reports of
dead code elimination, folding and the guided pass are true (`Pass.Reports`): without a reported
change the program is left as it was, with one the content differs, and the reported change of
size is the difference of the two sizes. In each pass this is a fact about the single removal,
the single folded function or the single step, carried along the walk over the program.
-/

namespace Timebound

namespace Program

variable {program changed left : Program}

/-- Programs have the same content when their slots are equal. -/
theorem sameContent_iff : left.sameContent program = true ↔
    left.functions.slots = program.functions.slots ∧
      left.globals.slots = program.globals.slots := by
  simp [sameContent, Arena.sameSlots]

/-- Programs of the same content have the same functions and globals. -/
theorem lookup_of_sameContent (same : left.sameContent program = true) :
    left.function? = program.function? ∧ left.global? = program.global? := by
  have ⟨functions, globals⟩ := sameContent_iff.mp same
  constructor
  · funext id
    simp only [function?, Arena.get?, functions]
  · funext id
    simp only [global?, Arena.get?, globals]

/-- Programs of the same content have the same size. -/
theorem size_of_sameContent (same : left.sameContent program = true) :
    left.size = program.size := by
  rw [size, size, Arena.entries, Arena.entries, (sameContent_iff.mp same).1]

/-- A change of one function changes the size by the difference it makes there. -/
theorem size_update {id : FunctionId} {change : Function → Function} {function : Function}
    (found : program.function? id = some function)
    (updated : program.updateFunction? id change = some changed) :
    changed.size + function.size = program.size + (change function).size := by
  obtain ⟨functions, arena, rfl⟩ := Option.map_eq_some_iff.mp updated
  exact Arena.total_update found arena fun _ function => function.size

end Program

/-- The reports of a pass are true. -/
structure Pass.Reports (pass : Pass) : Prop where
  /-- Without a reported change the program is left as it was. -/
  idle : ∀ {earlier : Nat} {program : Program} {analysis : Analysis} {outcome : Outcome},
    (pass.transform earlier program analysis).2 = .ok outcome → outcome.modified = false →
      (pass.transform earlier program analysis).1 = program
  /-- With one, the content differs. -/
  busy : ∀ {earlier : Nat} {program : Program} {analysis : Analysis} {outcome : Outcome},
    (pass.transform earlier program analysis).2 = .ok outcome → outcome.modified = true →
      (pass.transform earlier program analysis).1.sameContent program = false
  /-- The reported change of size is the difference of the sizes. -/
  sized : ∀ {earlier : Nat} {program : Program} {analysis : Analysis} {outcome : Outcome},
    (pass.transform earlier program analysis).2 = .ok outcome →
      ((pass.transform earlier program analysis).1.size : Int) = program.size + outcome.sizeImpact

namespace Pass.Reports

variable {pass : Pass} {earlier : Nat} {program : Program} {analysis : Analysis} {outcome : Outcome}

/-- Without a reported change, an execution only closes the record. -/
theorem execute_idle (reports : pass.Reports)
    (reported : (pass.execute earlier program analysis).result = .ok outcome)
    (unmodified : outcome.modified = false) :
    (pass.execute earlier program analysis).program = program.closeJournal ∧
      (pass.execute earlier program analysis).changes = {} := by
  have left := reports.idle reported unmodified
  have closed := congrArg Program.closeJournal left
  have recorded := congrArg Program.changes left
  exact ⟨closed, recorded⟩

/-- An execution changes the size as reported. -/
theorem execute_size (reports : pass.Reports)
    (reported : (pass.execute earlier program analysis).result = .ok outcome) :
    ((pass.execute earlier program analysis).program.size : Int) =
      program.size + outcome.sizeImpact :=
  reports.sized reported

end Pass.Reports

/-! ## Dead code elimination -/

namespace DeadCode

/-- The size of what is left and of what was removed. -/
def Removal.account (removal : Removal) : Nat := removal.program.size + removal.nodes

/-- Removing a function moves its size to the removed nodes. -/
theorem Removal.account_dropFunction (removal : Removal) (id : FunctionId) :
    (removal.dropFunction id).account = removal.account := by
  unfold Removal.dropFunction
  cases removed : removal.program.removeFunction? id with
  | none => rfl
  | some pair =>
    obtain ⟨⟨function, functions⟩, arena, rfl⟩ := Option.map_eq_some_iff.mp removed
    have share : ({ removal.program with functions } : Program).size + function.size =
        removal.program.size := Arena.total_remove arena fun _ function => function.size
    change ({ removal.program with functions } : Program).size + (removal.nodes + function.size) =
      removal.program.size + removal.nodes
    omega

/-- Removing a global changes no size. -/
theorem Removal.account_dropGlobal (removal : Removal) (id : GlobalId) :
    (removal.dropGlobal id).account = removal.account := by
  unfold Removal.dropGlobal
  cases removed : removal.program.removeGlobal? id with
  | none => rfl
  | some pair =>
    obtain ⟨⟨global, globals⟩, arena, rfl⟩ := Option.map_eq_some_iff.mp removed
    rfl

/-- What no single removal changes, removing everything dead does not change. -/
theorem removeDead_keeps {value : Removal → Nat}
    (function : ∀ removal id, value (removal.dropFunction id) = value removal)
    (global : ∀ removal id, value (removal.dropGlobal id) = value removal) (program : Program) :
    value (removeDead program) = value { program } := by
  have functions (ids : List FunctionId) (removal : Removal) :
      value (ids.foldl .dropFunction removal) = value removal := by
    induction ids generalizing removal with
    | nil => rfl
    | cons id rest ih => exact (ih _).trans (function removal id)
  have globals (ids : List GlobalId) (removal : Removal) :
      value (ids.foldl .dropGlobal removal) = value removal := by
    induction ids generalizing removal with
    | nil => rfl
    | cons id rest ih => exact (ih _).trans (global removal id)
  rw [removeDead, globals, functions]

/-- The removal counts the nodes of what it removes. -/
theorem account_removeDead (program : Program) : (removeDead program).account = program.size :=
  removeDead_keeps Removal.account_dropFunction Removal.account_dropGlobal program

/-- Dead code elimination reports truly. -/
theorem pass_reports : pass.Reports where
  idle {earlier program analysis outcome} reported unmodified := by
    cases reported
    have clean : ¬((∃ id, id ∈ deadFunctions program) ∨ ∃ id, id ∈ deadGlobals program) := by
      rw [← modified_removeDead_iff, unmodified]
      exact Bool.false_ne_true
    rw [not_or, not_exists, not_exists] at clean
    change (removeDead program).program = program
    rw [removeDead, List.eq_nil_iff_forall_not_mem.mpr clean.1,
      List.eq_nil_iff_forall_not_mem.mpr clean.2]
    rfl
  busy {earlier program analysis outcome} reported modified := by
    cases reported
    have lost : Loses program (removeDead program).program :=
      (loses_iff (removeDead_livePart program)).mpr ((modified_removeDead_iff program).mp modified)
    change (removeDead program).program.sameContent program = false
    refine Bool.eq_false_iff.mpr fun same => ?_
    obtain ⟨functions, globals⟩ := Program.lookup_of_sameContent same
    rcases lost with ⟨id, present, missing⟩ | ⟨id, present, missing⟩
    · rw [← functions, missing] at present
      cases present
    · rw [← globals, missing] at present
      cases present
  sized {earlier program analysis outcome} reported := by
    cases reported
    have account := account_removeDead program
    have impact : (removeDead program).outcome.sizeImpact =
        -((removeDead program).nodes : Int) := by
      simp only [Removal.outcome, Outcome.sizeImpact_count]
    change ((removeDead program).program.size : Int) = _
    rw [impact]
    simp only [Removal.account] at account
    omega

end DeadCode

/-! ## Folding -/

namespace Folding

/-- What the folding of one function does. -/
structure Folds (before after : Program × Outcome) (id : FunctionId) (function : Function) :
    Prop where
  /-- The function as it was. -/
  found : before.1.function? id = some function
  /-- It gets its settled body. -/
  updated : before.1.updateFunction? id
    (fun f => { f with body := (Block.foldFully function.body).1 }) = some after.1
  /-- The change of size is reported. -/
  sized : after.2.sizeImpact = before.2.sizeImpact +
    ((Block.size (Block.foldFully function.body).1 : Int) - function.size)
  /-- The folds are counted. -/
  counted : after.2.counter "constants_folded" =
    before.2.counter "constants_folded" + (Block.foldFully function.body).2

/-- The folding of a function does nothing when there is none, and else gives it its settled
body. -/
theorem foldFunction_cases (state : Program × Outcome) (id : FunctionId) :
    (state.1.function? id = none ∧ foldFunction state id = state) ∨
      ∃ function, Folds state (foldFunction state id) id function := by
  cases found : state.1.function? id with
  | none =>
    refine .inl ⟨rfl, ?_⟩
    unfold foldFunction
    simp only [found]
  | some function =>
    have updates : ∃ changed, state.1.updateFunction? id
        (fun f => { f with body := (Block.foldFully function.body).1 }) = some changed := by
      unfold Program.function? at found
      simp [Program.updateFunction?, Arena.update?, found]
    obtain ⟨changed, updated⟩ := updates
    refine .inr ⟨function, found, ?_, ?_, ?_⟩
    · rw [foldFunction_program state found, updated, Option.getD_some]
    · unfold foldFunction
      simp only [found, Outcome.sizeImpact_count]
    · have count := Outcome.counter_count state.2 "constants_folded" "constants_folded"
        (Block.foldFully function.body).2
      rw [if_pos rfl] at count
      unfold foldFunction
      simp only [found]
      exact count

variable {before after : Program × Outcome} {id : FunctionId} {function : Function}

/-- The size changes as reported. -/
theorem Folds.size_eq (folds : Folds before after id function) :
    (after.1.size : Int) - after.2.sizeImpact = before.1.size - before.2.sizeImpact := by
  have size := Program.size_update folds.found folds.updated
  have reported := folds.sized
  simp only [Function.size] at size reported
  omega

/-- Every fold takes a node away. -/
theorem Folds.size_le (folds : Folds before after id function) :
    after.1.size + after.2.counter "constants_folded" ≤
      before.1.size + before.2.counter "constants_folded" := by
  have size := Program.size_update folds.found folds.updated
  have shrunk : Block.size (Block.foldFully function.body).1 + (Block.foldFully function.body).2 ≤
      Block.size function.body := Block.size_foldRounds _ function.body
  have counted := folds.counted
  simp only [Function.size] at size
  omega

/-- The size changes as reported when functions are folded in a row, every fold takes a node
away, and no fold is forgotten. -/
theorem foldl_foldFunction_size (ids : List FunctionId) (state : Program × Outcome) :
    let last := ids.foldl foldFunction state
    (last.1.size : Int) - last.2.sizeImpact = state.1.size - state.2.sizeImpact ∧
      last.1.size + last.2.counter "constants_folded" ≤
        state.1.size + state.2.counter "constants_folded" ∧
      state.2.counter "constants_folded" ≤ last.2.counter "constants_folded" := by
  induction ids generalizing state with
  | nil => exact ⟨rfl, Nat.le_refl _, Nat.le_refl _⟩
  | cons id rest ih =>
    have ⟨later, shrinks, grows⟩ := ih (foldFunction state id)
    rcases foldFunction_cases state id with ⟨_, same⟩ | ⟨function, folds⟩
    · rw [same] at later shrinks grows
      rw [List.foldl_cons, same]
      exact ⟨later, shrinks, grows⟩
    · have counted := folds.counted
      exact ⟨later.trans folds.size_eq, shrinks.trans folds.size_le, by
        rw [List.foldl_cons]; omega⟩

/-- Something is folded when there are candidates. -/
theorem counter_foldl_pos {program : Program} (work : candidates program ≠ []) :
    0 < ((candidates program).foldl foldFunction (program, {})).2.counter "constants_folded" := by
  cases listed : candidates program with
  | nil => exact absurd listed work
  | cons id rest =>
    -- The first candidate is folded as it stands in the program.
    have candidate : id ∈ candidates program := listed ▸ List.mem_cons_self
    obtain ⟨⟨first, function⟩, entry, rfl⟩ := List.mem_map.mp candidate
    obtain ⟨present, foldable⟩ := List.mem_filter.mp entry
    have found : program.function? first = some function := Arena.mem_entries.mp present
    rcases foldFunction_cases (program, {}) first with ⟨missing, _⟩ | ⟨other, folds⟩
    · cases found.symm.trans missing
    · cases found.symm.trans folds.found
      have counted := folds.counted
      have positive : 0 < (Block.foldFully function.body).2 := Block.foldFully_pos foldable
      have ⟨_, _, grows⟩ := foldl_foldFunction_size rest (foldFunction (program, {}) first)
      change 0 < (rest.foldl foldFunction (foldFunction (program, {}) first)).2.counter
        "constants_folded"
      omega

/-- Folding reports truly. -/
theorem pass_reports : pass.Reports where
  idle {earlier program analysis outcome} reported unmodified := by
    cases reported
    have nothing : candidates program = [] := by
      by_contra work
      have positive := counter_foldl_pos work
      have none : ((candidates program).foldl foldFunction (program, {})).2.counter
          "constants_folded" = 0 := by simpa using unmodified
      omega
    change ((candidates program).foldl foldFunction (program, {})).1 = program
    rw [nothing]
    rfl
  busy {earlier program analysis outcome} reported modified := by
    cases reported
    have some : ((candidates program).foldl foldFunction (program, {})).2.counter
        "constants_folded" ≠ 0 := by simpa using modified
    have ⟨_, shrinks, _⟩ := foldl_foldFunction_size (candidates program) (program, {})
    have none : ({} : Outcome).counter "constants_folded" = 0 := rfl
    refine Bool.eq_false_iff.mpr fun same => ?_
    have size : ((candidates program).foldl foldFunction (program, {})).1.size = program.size :=
      Program.size_of_sameContent same
    dsimp only at shrinks
    omega
  sized {earlier program analysis outcome} reported := by
    cases reported
    have ⟨size, _⟩ := foldl_foldFunction_size (candidates program) (program, {})
    change (((candidates program).foldl foldFunction (program, {})).1.size : Int) =
      program.size + ((candidates program).foldl foldFunction (program, {})).2.sizeImpact
    have none : ({} : Outcome).sizeImpact = 0 := rfl
    dsimp only at size
    omega

end Folding

/-! ## The guided pass -/

namespace Guided

variable {tuning : Tuning} {analysis : Analysis} {program : Program}

/-- A guided change in progress alters the functions it reports and no others, and reports the
change of size. -/
structure Alters (program : Program) (progress : Progress) : Prop where
  /-- Touched functions are not what they were. -/
  touched : ∀ id ∈ progress.touched, progress.program.function? id ≠ program.function? id
  /-- The others are. -/
  untouched : ∀ id, id ∉ progress.touched → progress.program.function? id = program.function? id
  /-- While nothing is touched, the program is the same. -/
  idle : progress.touched = [] → progress = { program }
  /-- The size has changed as reported. -/
  sized : (progress.program.size : Int) = program.size + progress.outcome.sizeImpact

variable (tuning analysis) in
/-- A step on a function that has not been touched alters it or nothing. -/
theorem step_alters {progress : Progress} (alters : Alters program progress) {id : FunctionId}
    (fresh : id ∉ progress.touched) : Alters program (step tuning analysis progress id) := by
  rcases step_cases tuning analysis progress id with idle | ⟨function, change, rewrites⟩
  · rw [idle]
    exact alters
  · have rebodied := rewrites.rebodied
    refine ⟨fun other listed => ?_, fun other absent => ?_, fun nothing => ?_, ?_⟩
    · rw [rewrites.touched] at listed
      rcases List.mem_cons.mp listed with rfl | older
      · rw [rebodied.foundNew, ← alters.untouched other fresh, rewrites.found]
        exact fun same => rewrites.differs (congrArg Function.body (Option.some.inj same))
      · rw [rebodied.unchanged fun same => fresh (same ▸ older)]
        exact alters.touched other older
    · rw [rewrites.touched, List.mem_cons, not_or] at absent
      rw [rebodied.unchanged absent.1, alters.untouched other absent.2]
    · rw [rewrites.touched] at nothing
      cases nothing
    · have size := Program.size_update rewrites.found rewrites.updated
      have reported := rewrites.sized
      have before := alters.sized
      simp only [Function.size] at size reported
      omega

variable (tuning analysis program) in
/-- The guided change alters the functions it reports. -/
theorem changeAll_alters : Alters program (changeAll tuning analysis program) := by
  refine changeAll_induct ⟨fun _ listed => absurd listed List.not_mem_nil, fun _ _ => rfl,
    fun _ => rfl, (Int.add_zero _).symm⟩ ?_
  exact fun _ _ _ fresh alters => step_alters tuning analysis alters fresh

/-- What the guided pass reports: a change when a function is touched, and the change of size
that was summed up. -/
theorem transform_reported {outcome : Outcome}
    (reported : (transform tuning program analysis).2 = .ok outcome) :
    (outcome.modified = true ↔ (changeAll tuning analysis program).touched ≠ []) ∧
      outcome.sizeImpact = (changeAll tuning analysis program).outcome.sizeImpact := by
  have alters := changeAll_alters tuning analysis program
  unfold transform at reported
  dsimp only at reported
  split at reported
  · rename_i none
    cases reported
    have idle := alters.idle (List.isEmpty_iff.mp none)
    refine ⟨?_, rfl⟩
    rw [idle]
    simp
  · rename_i some
    obtain ⟨refreshed, _, made⟩ := bind_eq_ok_iff.mp reported
    cases made
    simpa using some

/-- The guided pass reports truly. -/
theorem pass_reports (tuning : Tuning) : (pass tuning).Reports where
  idle {earlier program analysis outcome} reported unmodified := by
    have ⟨modified, _⟩ := transform_reported reported
    have nothing : (changeAll tuning analysis program).touched = [] := by
      by_contra touched
      exact Bool.false_ne_true (unmodified.symm.trans (modified.mpr touched))
    have alters := changeAll_alters tuning analysis program
    change (transform tuning program analysis).1 = program
    rw [transform_program, alters.idle nothing]
  busy {earlier program analysis outcome} reported modified := by
    have touched := (transform_reported reported).1.mp modified
    obtain ⟨id, listed⟩ := List.exists_mem_of_ne_nil _ touched
    have alters := changeAll_alters tuning analysis program
    refine Bool.eq_false_iff.mpr fun same => alters.touched id listed ?_
    have ⟨functions, _⟩ := Program.lookup_of_sameContent same
    rw [← functions]
    exact congrFun (congrArg Program.function? (transform_program tuning analysis program).symm) id
  sized {earlier program analysis outcome} reported := by
    have ⟨_, impact⟩ := transform_reported reported
    have alters := changeAll_alters tuning analysis program
    change ((transform tuning program analysis).1.size : Int) = _
    rw [transform_program, impact]
    exact alters.sized

end Guided

/-- All passes of the standard optimizer report truly. -/
theorem standard_reports (tuning : Tuning) :
    ∀ pass ∈ [DeadCode.pass, Folding.pass, Guided.pass tuning], pass.Reports := by
  intro pass listed
  simp only [List.mem_cons, List.not_mem_nil, or_false] at listed
  rcases listed with rfl | rfl | rfl
  · exact DeadCode.pass_reports
  · exact Folding.pass_reports
  · exact Guided.pass_reports tuning

end Timebound
