import Timebound.Proofs.FoldingCycles
import Timebound.Proofs.GrowthPercent
import Timebound.Proofs.SufficientBounds

/-!
# Folding keeps programs analyzable

Only operators on literals are folded, and no call or access to a global stands below them. So a
folded body makes the same calls equally often and mentions the same globals, and the folded
program has the same reachable part and the same callee-first order
(`Program.FoldsTo.callOrder_eq`). Bounded in this order, every function of the folded program gets
a bound, and a lower one (`Program.FoldsTo.analyze`).
-/

namespace Timebound

/-! ## Calls and accesses -/

/-- Only an operator whose operands are literals folds. -/
theorem Expr.operands_of_folded {e : Expr} {value : Literal} (folds : e.folded? = some value) :
    (∃ op type a, e = .unary op type (.lit a)) ∨
      ∃ op type a b, e = .binary op type (.lit a) (.lit b) := by
  cases e with
  | unary op type operand =>
    cases operand with
    | lit a => exact .inl ⟨op, type, a, rfl⟩
    | _ => simp [Expr.folded?, Expr.literal?] at folds
  | binary op type left right =>
    cases left with
    | lit a =>
      cases right with
      | lit b => exact .inr ⟨op, type, a, b, rfl⟩
      | _ => simp [Expr.folded?, Expr.literal?] at folds
    | _ => simp [Expr.folded?, Expr.literal?] at folds
  | _ => simp [Expr.folded?] at folds

/-- Something read off the nodes that are no literals and operators, whatever their operands. -/
structure Expr.Overlooks {α : Type} (key : Expr → Option α) : Prop where
  /-- It is not read off literals. -/
  literal : ∀ value, key (.lit value) = none
  /-- It is not read off operators on one operand. -/
  unary : ∀ op type operand, key (.unary op type operand) = none
  /-- It is not read off operators on two operands. -/
  binary : ∀ op type left right, key (.binary op type left right) = none
  /-- It is read off a load without regard to the index. -/
  load : ∀ id index other, key (.load id index) = key (.load id other)
  /-- It is read off a call without regard to the arguments. -/
  call : ∀ callee args others, key (.call callee args) = key (.call callee others)

section Keys

variable {α : Type} {key : Expr → Option α}

/-- A fold at the root takes away nothing that is read off the nodes. -/
theorem Expr.Overlooks.collapse (overlooks : Expr.Overlooks key) (e : Expr) :
    e.collapse.nodes.filterMap key = e.nodes.filterMap key := by
  unfold Expr.collapse
  cases folds : e.folded? with
  | none => rfl
  | some value =>
    rcases Expr.operands_of_folded folds with ⟨op, type, a, rfl⟩ | ⟨op, type, a, b, rfl⟩
    · simp [Expr.nodes, overlooks.literal, overlooks.unary]
    · simp [Expr.nodes, overlooks.literal, overlooks.binary]

mutual

/-- The same is read off the nodes of a folded expression. -/
theorem Expr.Overlooks.fold (overlooks : Expr.Overlooks key) : ∀ e : Expr,
    e.fold.nodes.filterMap key = e.nodes.filterMap key
  | .lit _ | .var _ | .global _ => rfl
  | .load id index => by
    rw [Expr.fold, Expr.nodes, Expr.nodes, List.filterMap_cons, List.filterMap_cons,
      overlooks.load id index.fold index, overlooks.fold index]
  | .unary op type operand => by
    rw [Expr.fold, overlooks.collapse, Expr.nodes, Expr.nodes, List.filterMap_cons,
      List.filterMap_cons, overlooks.unary, overlooks.unary, overlooks.fold operand]
  | .binary op type left right => by
    rw [Expr.fold, overlooks.collapse, Expr.nodes, Expr.nodes, List.filterMap_cons,
      List.filterMap_cons, overlooks.binary, overlooks.binary, List.filterMap_append,
      List.filterMap_append, overlooks.fold left, overlooks.fold right]
  | .call callee args => by
    rw [Expr.fold, Expr.nodes, Expr.nodes, List.filterMap_cons, List.filterMap_cons,
      overlooks.call callee (Args.fold args) args, overlooks.args args]

/-- The same is read off the nodes of folded arguments. -/
theorem Expr.Overlooks.args (overlooks : Expr.Overlooks key) : ∀ args : List Expr,
    (Args.nodes (Args.fold args)).filterMap key = (Args.nodes args).filterMap key
  | [] => rfl
  | arg :: args => by
    rw [Args.fold, Args.nodes, Args.nodes, List.filterMap_append, List.filterMap_append,
      overlooks.fold arg, overlooks.args args]

end

end Keys

/-- Callees are read off calls only. -/
theorem Expr.overlooks_callee : Expr.Overlooks Expr.callee? :=
  ⟨fun _ => rfl, fun _ _ _ => rfl, fun _ _ _ _ => rfl, fun _ _ _ => rfl, fun _ _ _ => rfl⟩

/-- Globals are read off reads of globals only. -/
theorem Expr.overlooks_readGlobal : Expr.Overlooks Expr.readGlobal? :=
  ⟨fun _ => rfl, fun _ _ _ => rfl, fun _ _ _ _ => rfl, fun _ _ _ => rfl, fun _ _ _ => rfl⟩

/-- A folded block calls the same functions. -/
theorem Block.callees_fold (block : Block) :
    Block.callees (Block.fold block) = Block.callees block := by
  have relates : RelatesFolds fun old new =>
      new.filterMap Expr.callee? = old.filterMap Expr.callee? := by
    refine ⟨rfl, fun first second => ?_, Expr.overlooks_callee.fold⟩
    rw [List.filterMap_append, List.filterMap_append, first, second]
  unfold Block.callees
  rw [relates.block block]

/-- A folded expression reads the same globals. -/
theorem Expr.globals_fold (e : Expr) : e.fold.globals = e.globals :=
  Expr.overlooks_readGlobal.fold e

/-- A folded optional expression reads the same globals. -/
theorem Expr.optionalGlobals_fold (e : Option Expr) :
    (e.map Expr.fold).toList.flatMap Expr.globals = e.toList.flatMap Expr.globals := by
  cases e with
  | none => rfl
  | some e => simp [e.globals_fold]

mutual

/-- A folded statement mentions the same globals. -/
theorem Stmt.globals_fold : ∀ s : Stmt, s.fold.globals = s.globals
  | .bind _ _ value | .assign _ value | .setGlobal _ value | .emit _ value | .eval value => by
    simp only [Stmt.fold, Stmt.globals, value.globals_fold]
  | .store _ index value => by
    simp only [Stmt.fold, Stmt.globals, index.globals_fold, value.globals_fold]
  | .branch cond thenBody elseBody _ => by
    simp only [Stmt.fold, Stmt.globals, cond.globals_fold, Block.globals_fold thenBody,
      Block.globals_fold elseBody]
  | .loop _ _ condition body => by
    simp only [Stmt.fold, Stmt.globals, Expr.optionalGlobals_fold condition,
      Block.globals_fold body]
  | .ret value => by simp only [Stmt.fold, Stmt.globals, Expr.optionalGlobals_fold value]

/-- A folded block mentions the same globals. -/
theorem Block.globals_fold : ∀ block : List Stmt,
    Block.globals (Block.fold block) = Block.globals block
  | [] => rfl
  | s :: rest => by
    rw [Block.fold, Block.globals, Block.globals, Stmt.globals_fold s, Block.globals_fold rest]

end

/-! ## Frequencies -/

/-- A fold at the root takes no call away. -/
theorem Expr.callSites_collapse (frequency : Nat) (e : Expr) :
    e.collapse.callSites frequency = e.callSites frequency := by
  unfold Expr.collapse
  cases folds : e.folded? with
  | none => rfl
  | some value =>
    rcases Expr.operands_of_folded folds with ⟨op, type, a, rfl⟩ | ⟨op, type, a, b, rfl⟩ <;> rfl

mutual

/-- A folded expression has the same call sites. -/
theorem Expr.callSites_fold (frequency : Nat) : ∀ e : Expr,
    e.fold.callSites frequency = e.callSites frequency
  | .lit _ | .var _ | .global _ => rfl
  | .load _ index => Expr.callSites_fold frequency index
  | .unary _ _ operand => by
    rw [Expr.fold, Expr.callSites_collapse, Expr.callSites, Expr.callSites,
      Expr.callSites_fold frequency operand]
  | .binary _ _ left right => by
    rw [Expr.fold, Expr.callSites_collapse, Expr.callSites, Expr.callSites,
      Expr.callSites_fold frequency left, Expr.callSites_fold frequency right]
  | .call _ args => by
    rw [Expr.fold, Expr.callSites, Expr.callSites, Args.callSites_fold frequency args]

/-- Folded arguments have the same call sites. -/
theorem Args.callSites_fold (frequency : Nat) : ∀ args : List Expr,
    Args.callSites frequency (Args.fold args) = Args.callSites frequency args
  | [] => rfl
  | arg :: args => by
    rw [Args.fold, Args.callSites, Args.callSites, Expr.callSites_fold frequency arg,
      Args.callSites_fold frequency args]

end

/-- A folded optional expression has the same call sites. -/
theorem Expr.optionalCallSites_fold (frequency : Nat) (e : Option Expr) :
    (e.map Expr.fold).toList.flatMap (Expr.callSites frequency) =
      e.toList.flatMap (Expr.callSites frequency) := by
  cases e with
  | none => rfl
  | some e => simp [e.callSites_fold frequency]

mutual

/-- A folded statement has the same call sites. -/
theorem Stmt.callSites_fold : ∀ (frequency : Nat) (s : Stmt),
    s.fold.callSites frequency = s.callSites frequency
  | frequency, .bind _ _ value | frequency, .assign _ value | frequency, .setGlobal _ value
  | frequency, .emit _ value | frequency, .eval value => value.callSites_fold frequency
  | frequency, .store _ index value => by
    simp only [Stmt.fold, Stmt.callSites, index.callSites_fold, value.callSites_fold]
  | frequency, .branch cond thenBody elseBody _ => by
    simp only [Stmt.fold, Stmt.callSites, cond.callSites_fold,
      Block.callSites_fold frequency thenBody, Block.callSites_fold frequency elseBody]
  | frequency, .loop _ bound condition body => by
    simp only [Stmt.fold, Stmt.callSites, Expr.optionalCallSites_fold _ condition,
      Block.callSites_fold _ body]
  | frequency, .ret value => Expr.optionalCallSites_fold frequency value

/-- A folded block has the same call sites. -/
theorem Block.callSites_fold : ∀ (frequency : Nat) (block : List Stmt),
    Block.callSites frequency (Block.fold block) = Block.callSites frequency block
  | _, [] => rfl
  | frequency, s :: rest => by
    rw [Block.fold, Block.callSites, Block.callSites, Stmt.callSites_fold frequency s,
      Block.callSites_fold frequency rest]

end

namespace Function

variable (function : Function)

/-- A folded function calls the same functions. -/
@[simp] theorem callees_folded : function.folded.callees = function.callees :=
  Block.callees_fold function.body

/-- A folded function mentions the same globals. -/
@[simp] theorem referencedGlobals_folded :
    function.folded.referencedGlobals = function.referencedGlobals :=
  congrArg List.eraseDups (Block.globals_fold function.body)

/-- A folded function calls itself if it did before. -/
@[simp] theorem calls_folded (id : FunctionId) : function.folded.calls id = function.calls id := by
  rw [calls, calls, callees_folded]

/-- A folded function calls each function as often. -/
theorem callFrequencies_folded : function.folded.callFrequencies = function.callFrequencies :=
  congrArg tallySites (Block.callSites_fold 1 function.body)

end Function

/-! ## Folded programs -/

namespace Program

/-- The bound of a function is below the limit of cycle counts. -/
theorem functionBound_lt {program : Program} {bounds : Table FunctionId Nat} {id : FunctionId}
    {function : Function} {bound : Nat}
    (known : program.functionBound bounds id function = .ok bound) : bound < cycleLimit := by
  obtain ⟨activation, body, made⟩ := bind_eq_ok_iff.mp known
  have inside := (Block.cycles_eq_ok_iff.mp body).2
  cases limited : function.recursionLimit with
  | none =>
    simp only [limited, Except.ok.injEq] at made
    omega
  | some limit =>
    simp only [limited] at made
    split at made
    · obtain ⟨rfl, below⟩ := checkedCycles_eq_ok_iff.mp made
      exact below
    · cases made
      exact inside

/-- Bounds of the same functions that are no larger. -/
def Cheaper (bounds newBounds : Table FunctionId Nat) : Prop :=
  ∀ id, (bounds.get? id = none ∧ newBounds.get? id = none) ∨
    ∃ bound less, bounds.get? id = some bound ∧ newBounds.get? id = some less ∧ less ≤ bound ∧
      bound < cycleLimit

/-- A bound has a counterpart that is no larger. -/
theorem Cheaper.lower {bounds newBounds : Table FunctionId Nat} (cheaper : Cheaper bounds newBounds)
    {id : FunctionId} {bound : Nat} (known : bounds.get? id = some bound) :
    ∃ less, less ≤ bound ∧ newBounds.get? id = some less := by
  rcases cheaper id with ⟨missing, _⟩ | ⟨same, less, found, refound, smaller, _⟩
  · rw [missing] at known
    cases known
  · cases found.symm.trans known
    exact ⟨less, smaller, refound⟩

/-- A bound and one that is no larger can be added. -/
theorem Cheaper.insert {bounds newBounds : Table FunctionId Nat}
    (cheaper : Cheaper bounds newBounds) (id : FunctionId) {bound less : Nat}
    (lower : less ≤ bound) (inside : bound < cycleLimit) :
    Cheaper (bounds.insert id bound) (newBounds.insert id less) := by
  intro other
  rw [Table.get?_insert, Table.get?_insert]
  split
  · exact .inr ⟨bound, less, rfl, rfl, lower, inside⟩
  · exact cheaper other

/-- The bound of a folded function is lowered with the bounds of its callees. -/
theorem functionBound_lowers_folded (program folded : Program)
    {bounds newBounds : Table FunctionId Nat} (cheaper : Cheaper bounds newBounds)
    (id : FunctionId) (function : Function) :
    Lowers (program.functionBound bounds id function)
      (folded.functionBound newBounds id function.folded) := by
  have body : Lowers
      (Block.cycles (program.activationCycles bounds id function.recursionLimit.isSome)
        function.body)
      (Block.cycles (folded.activationCycles newBounds id function.recursionLimit.isSome)
        function.folded.body) :=
    (Block.foldsCheaply_fold function.body).lowers.trans
      (cycles_lowers_of_bounds fun callee _ _ bound known => cheaper.lower known)
  have limited : function.folded.recursionLimit = function.recursionLimit := rfl
  unfold functionBound
  rw [limited, Function.calls_folded]
  refine body.bind fun activation less smaller => ?_
  cases function.recursionLimit with
  | none =>
    intro cost known
    cases known
    exact ⟨less, smaller, rfl⟩
  | some limit =>
    dsimp only
    split
    · exact .checked (Nat.mul_le_mul_right limit smaller)
    · intro cost known
      cases known
      exact ⟨less, smaller, rfl⟩

namespace FoldsTo

variable {program folded : Program} (folds : program.FoldsTo folded)

include folds

/-- What a folded program finds is folded. -/
theorem function?_folded {id : FunctionId} {function : Function}
    (found : program.function? id = some function) :
    folded.function? id = some function.folded := by
  rw [folds.functions id, found, Option.map_some]

/-- What a folded program finds was there before. -/
theorem exists_function? {id : FunctionId} {new : Function}
    (found : folded.function? id = some new) :
    ∃ function, program.function? id = some function ∧ function.folded = new := by
  rw [folds.functions id] at found
  exact Option.map_eq_some_iff.mp found

/-- Outside code can get to the same functions. -/
theorem reaches_iff {id : FunctionId} : folded.Reaches id ↔ program.Reaches id := by
  constructor
  · intro reached
    induction reached with
    | root found isRoot =>
      obtain ⟨function, there, rfl⟩ := folds.exists_function? found
      exact .root there isRoot
    | call _ found called existing ih =>
      obtain ⟨function, there, rfl⟩ := folds.exists_function? found
      obtain ⟨target, present, rfl⟩ := folds.exists_function? existing
      rw [Function.callees_folded] at called
      exact .call ih there called present
  · intro reached
    induction reached with
    | root found isRoot => exact .root (folds.function?_folded found) isRoot
    | call _ found called existing ih =>
      rw [← Function.callees_folded] at called
      exact .call ih (folds.function?_folded found) called (folds.function?_folded existing)

/-- Outside code can get to the same globals. -/
theorem reachesGlobal_iff {id : GlobalId} : folded.ReachesGlobal id ↔ program.ReachesGlobal id := by
  constructor
  · intro reached
    cases reached with
    | exported found isExported => exact .exported (folds.globals id ▸ found) isExported
    | mention reached found mentioned =>
      obtain ⟨function, there, rfl⟩ := folds.exists_function? found
      rw [Function.referencedGlobals_folded] at mentioned
      exact .mention (folds.reaches_iff.mp reached) there mentioned
  · intro reached
    cases reached with
    | exported found isExported => exact .exported ((folds.globals id).trans found) isExported
    | mention reached found mentioned =>
      rw [← Function.referencedGlobals_folded] at mentioned
      exact .mention (folds.reaches_iff.mpr reached) (folds.function?_folded found) mentioned

/-- A folded program has the same reachable part. -/
theorem reachable_eq : folded.reachable = program.reachable := by
  have functions : folded.reachable.functions = program.reachable.functions := by
    refine OrderedSet.ext_keys fun id => ?_
    rw [mem_reachable_functions, mem_reachable_functions, folds.reaches_iff]
  have globals : folded.reachable.globals = program.reachable.globals := by
    refine OrderedSet.ext_keys fun id => ?_
    rw [mem_reachable_globals, mem_reachable_globals, folds.reachesGlobal_iff]
  have parts (one : Program) :
      one.reachable = ⟨one.reachable.functions, one.reachable.globals⟩ := rfl
  rw [parts folded, parts program, functions, globals]

/-- A folded program has the same roots, in the same order. -/
theorem roots_eq : (folded.functions.entries.filter fun entry => entry.2.isRoot).map (·.1) =
    (program.functions.entries.filter fun entry => entry.2.isRoot).map (·.1) := by
  have entries : folded.functions.entries =
      program.functions.entries.map fun entry => (entry.1, entry.2.folded) := by
    rw [Arena.entries_eq, Arena.entries_eq, folds.functionSlots, List.map_filterMap]
    refine List.filterMap_congr fun slot _ => ?_
    have found : folded.functions.get? ⟨slot⟩ = _ := folds.functions ⟨slot⟩
    rw [found, Option.map_map, Option.map_map]
    rfl
  rw [entries, List.filter_map, List.map_map]
  rfl

/-- A call has the same fault in a folded program. -/
theorem callFault?_eq (active : List FunctionId) (id : FunctionId) (function : Function)
    (callee : FunctionId) : folded.callFault? active id function.folded callee =
      program.callFault? active id function callee := by
  rw [callFault?, callFault?, folds.functions callee]
  cases program.function? callee <;> rfl

/-- A visit goes the same way in a folded program. -/
theorem visit_eq (depth : Nat) : folded.visit depth = program.visit depth := by
  induction depth with
  | zero => rfl
  | succ depth ih =>
    funext active finished id
    rw [visit, visit, folds.functions id]
    cases found : program.function? id with
    | none => rfl
    | some function =>
      have faults : folded.callFault? active id function.folded =
          program.callFault? active id function :=
        funext (folds.callFault?_eq active id function)
      simp only [Option.map_some, Function.callees_folded, faults, ih]
      rfl

/-- A folded program has the same callee-first order. -/
theorem callOrder_eq : folded.callOrder = program.callOrder := by
  rw [callOrder, callOrder, folds.roots_eq, folds.functionSlots, folds.visit_eq]

/-- Bounding functions in a row succeeds in a folded program, with lower bounds. -/
theorem addBounds {order : List FunctionId} {bounds newBounds larger : Table FunctionId Nat}
    (cheaper : Cheaper bounds newBounds)
    (added : order.foldlM program.addBound bounds = .ok larger) :
    ∃ newLarger, order.foldlM folded.addBound newBounds = .ok newLarger ∧
      Cheaper larger newLarger := by
  induction order generalizing bounds newBounds with
  | nil =>
    cases added
    exact ⟨newBounds, rfl, cheaper⟩
  | cons id rest ih =>
    rw [List.foldlM_cons, bind_eq_ok_iff] at added
    obtain ⟨middle, first, others⟩ := added
    rw [addBound] at first
    obtain ⟨newMiddle, refirst, lower⟩ : ∃ newMiddle, folded.addBound newBounds id = .ok newMiddle ∧
        Cheaper middle newMiddle := by
      rw [addBound, folds.functions id]
      cases found : program.function? id with
      | none =>
        simp only [found, Except.ok.injEq] at first
        exact ⟨newBounds, rfl, first ▸ cheaper⟩
      | some function =>
        simp only [found] at first
        cases known : program.functionBound bounds id function with
        | error cause => simp [known] at first
        | ok bound =>
          simp only [known, Except.ok.injEq] at first
          obtain ⟨less, smaller, reknown⟩ := functionBound_lowers_folded program folded cheaper id
            function bound known
          refine ⟨newBounds.insert id less, ?_,
            first ▸ cheaper.insert id smaller (functionBound_lt known)⟩
          simp only [Option.map_some, reknown]
    obtain ⟨newLarger, reothers, last⟩ := ih lower others
    exact ⟨newLarger, by rw [List.foldlM_cons, refirst]; exact reothers, last⟩

/-- A folded program can be analyzed, with the same reachable part and lower bounds. -/
theorem analyze {profile : Option Profile} {analysis : Analysis}
    (analyzed : program.analyze profile = .ok analysis) (other : Option Profile) :
    ∃ refreshed, folded.analyze other = .ok refreshed ∧
      refreshed.reachable = analysis.reachable ∧ Cheaper analysis.bounds refreshed.bounds := by
  unfold Program.analyze at analyzed
  obtain ⟨order, ordered, rest⟩ := bind_eq_ok_iff.mp analyzed
  obtain ⟨bounds, added, made⟩ := bind_eq_ok_iff.mp rest
  cases made
  have start : Cheaper .empty .empty := fun id => .inl ⟨by simp, by simp⟩
  obtain ⟨newBounds, readded, cheaper⟩ := folds.addBounds start added
  have reanalyzed : ∃ refreshed, folded.analyze other = .ok refreshed ∧
      refreshed.reachable = folded.reachable ∧ refreshed.bounds = newBounds := by
    unfold Program.analyze
    exact ⟨_, bind_eq_ok_iff.mpr ⟨order, folds.callOrder_eq.trans ordered,
      bind_eq_ok_iff.mpr ⟨newBounds, readded, rfl⟩⟩, rfl, rfl⟩
  obtain ⟨refreshed, done, reachable, rfl⟩ := reanalyzed
  exact ⟨refreshed, done, reachable.trans folds.reachable_eq, cheaper⟩

end FoldsTo

end Program

/-! ## The pass -/

namespace Folding

/-- Where no bound grew, no change is turned down for growth. -/
theorem degradation?_eq_none {settings : Settings} {before after : Analysis}
    (allowed : 0.0 ≤ settings.maxDegradation) (cheaper : Program.Cheaper before.bounds after.bounds)
    (program : Program) (changes : Changes) :
    Optimizer.degradation? settings program changes before after = none := by
  refine List.findSome?_eq_none_iff.mpr fun id _ => ?_
  rw [Analysis.bound?, Analysis.bound?]
  rcases cheaper id with ⟨missing, _⟩ | ⟨old, new, found, refound, lower, inside⟩
  · rw [missing]
  · rw [found, refound]
    exact if_neg (degradationPercent_within lower inside allowed)

/-- Where no bound grew, a certified change is accepted or leaves an inconsistent program. -/
theorem validate_cases {settings : Settings} {before refreshed : Analysis} {execution : Execution}
    (allowed : 0.0 ≤ settings.maxDegradation)
    (reanalyzed : execution.program.analyze settings.profile = .ok refreshed)
    (cheaper : Program.Cheaper before.bounds refreshed.bounds) :
    Optimizer.validate settings pass before execution = .ok refreshed ∨
      ∃ error, Optimizer.validate settings pass before execution =
        .error (.determinism pass.name (.inconsistent error)) := by
  have certified : (!pass.certify execution.changes execution.program) = false := rfl
  have kept := degradation?_eq_none allowed cheaper execution.program execution.changes
  rw [Optimizer.validate, certified]
  cases execution.program.fault? with
  | some error => exact .inr ⟨error, rfl⟩
  | none =>
    simp only [reanalyzed, bind, Except.bind, kept]
    exact .inl (ite_self _)

/-- Folding is never turned down for growth of a bound. -/
theorem turn_ne_degradation {settings : Settings} {program : Program} {profile : Option Profile}
    {analysis : Analysis} (analyzed : program.analyze profile = .ok analysis)
    (allowed : 0.0 ≤ settings.maxDegradation) (record : PassRecord) (name : String)
    (old new : Nat) (percent : Float) :
    Optimizer.turn settings pass record ⟨program, analysis⟩ ≠
      .error (.degradation name old new percent) := by
  -- Recording the changes does not change what is found.
  have folds : program.FoldsTo (pass.execute record.runs program analysis).program := by
    obtain ⟨functions, globals, functionSlots, globalSlots⟩ :=
      foldProgram_foldsTo program.openJournal
    exact ⟨functions, globals, functionSlots, globalSlots⟩
  obtain ⟨refreshed, reanalyzed, _, cheaper⟩ := folds.analyze analyzed settings.profile
  obtain ⟨outcome, reported⟩ :
      ∃ outcome, (pass.execute record.runs program analysis).result = .ok outcome := ⟨_, rfl⟩
  unfold Optimizer.turn
  simp only [reported, bind, Except.bind]
  split
  · simp
  · split
    · rcases validate_cases allowed reanalyzed cheaper with accepted | ⟨error, rejected⟩
      · simp [accepted]
      · simp [rejected]
    · simp

/-- Folding keeps a program analyzable. The reachable part, the frequencies of calls and the
bounded functions stay the same, and no bound and no sum of node costs gets larger. So the pass is
never turned down for growth of a bound, if the allowance is not negative. -/
theorem transform_keeps_analysis {program : Program} {profile : Option Profile}
    {analysis : Analysis} (analyzed : program.analyze profile = .ok analysis) (earlier : Nat) :
    (∀ other, ∃ refreshed,
      (pass.transform earlier program analysis).1.analyze other = .ok refreshed ∧
      refreshed.reachable = analysis.reachable ∧
      ∀ id, (refreshed.bound? id).isSome = (analysis.bound? id).isSome ∧
        ∀ old new, analysis.bound? id = some old → refreshed.bound? id = some new → new ≤ old) ∧
    (∀ id, ((pass.transform earlier program analysis).1.function? id).map Function.callFrequencies =
      (program.function? id).map Function.callFrequencies) ∧
    (∀ id function, program.function? id = some function →
      Block.nodeCycles (Block.foldFully function.body).1 ≤ Block.nodeCycles function.body) ∧
    ∀ (settings : Settings) record name old new percent, 0.0 ≤ settings.maxDegradation →
      Optimizer.turn settings pass record ⟨program, analysis⟩ ≠
        .error (.degradation name old new percent) := by
  have folds : program.FoldsTo (pass.transform earlier program analysis).1 :=
    foldProgram_foldsTo program
  refine ⟨fun other => ?_, fun id => ?_, fun id function _ => ?_,
    fun settings record name old new percent allowed =>
      turn_ne_degradation analyzed allowed record name old new percent⟩
  · obtain ⟨refreshed, reanalyzed, reachable, cheaper⟩ := folds.analyze analyzed other
    refine ⟨refreshed, reanalyzed, reachable, fun id => ?_⟩
    rw [Analysis.bound?, Analysis.bound?]
    rcases cheaper id with ⟨missing, gone⟩ | ⟨old, new, found, refound, lower, _⟩
    · rw [missing, gone]
      exact ⟨rfl, fun _ _ known => by cases known⟩
    · rw [found, refound]
      refine ⟨rfl, fun _ _ known reknown => ?_⟩
      cases known
      cases reknown
      exact lower
  · rw [folds.functions id, Option.map_map]
    exact congrArg (fun read => (program.function? id).map read)
      (funext Function.callFrequencies_folded)
  · rw [Block.foldFully_eq]
    exact Block.nodeCycles_fold function.body

/-- The entry point loads two elements in a row, the second at an index to be folded, and leaves
early unless a condition with negations to be folded holds; it calls `scale` under a sum. -/
def sampler : Program where
  functions.slots := [
    some {
      name := entryPoint
      body := [
        .bind "first" .u64 (.load ⟨0⟩ (.lit (.ofInt .u64 1))),
        .bind "second" .u64 (.load ⟨0⟩ (.binary .add .u64 (.lit (.ofInt .u64 1))
          (.lit (.ofInt .u64 1)))),
        .branch (.not (.not (.lit (.ofBool true)))) [] [.ret none] none,
        .emit 1 (.binary .add .u64 (.call ⟨1⟩ [.var "first"])
          (.binary .mul .u64 (.lit (.ofInt .u64 3)) (.lit (.ofInt .u64 4))))] },
    some {
      name := "scale"
      params := [⟨"value", .u64⟩]
      result := some .u64
      body := [.ret (some (.binary .mul .u64 (.var "value") (.unary .neg .u64
        (.lit (.ofInt .u64 5)))))] }]
  globals.slots := [some { name := "inputs", type := .u64, length := 4 }]

/-- In `sampler` the bounds of `scale` and of the entry point fall from 7 to 6 and from 50 to 41
cycles; two of the nine are saved because the second load now follows the first in sequence. -/
theorem transform_keeps_analysis_sampler : ∃ old new, sampler.analyze none = .ok old ∧
    (pass.transform 0 sampler old).1.analyze none = .ok new ∧
    new.reachable = old.reachable ∧
    (old.bound? ⟨1⟩, old.bound? ⟨0⟩) = (some 7, some 50) ∧
    (new.bound? ⟨1⟩, new.bound? ⟨0⟩) = (some 6, some 41) ∧
    Optimizer.turn {} pass { name := pass.name } ⟨sampler, old⟩ ≠
      .error (.degradation entryPoint 50 41 0.0) := by
  obtain ⟨old, analyzed⟩ : ∃ old, sampler.analyze none = .ok old := ⟨_, rfl⟩
  obtain ⟨runs, _, _, accepted⟩ := transform_keeps_analysis analyzed 0
  obtain ⟨new, reanalyzed, reachable, _⟩ := runs none
  have before : (sampler.analyze none).toOption.map (fun old =>
      (old.bound? ⟨1⟩, old.bound? ⟨0⟩)) = some (some 7, some 50) := by decide +kernel
  have after : (sampler.analyze none).toOption.bind (fun old =>
      ((pass.transform 0 sampler old).1.analyze none).toOption.map (fun new =>
        (new.bound? ⟨1⟩, new.bound? ⟨0⟩))) = some (some 6, some 41) := by decide +kernel
  rw [analyzed] at before after
  simp only [Except.toOption, Option.map_some, Option.bind_some, Option.some.injEq,
    reanalyzed] at before after
  exact ⟨old, new, analyzed, reanalyzed, reachable, before, after,
    accepted {} { name := pass.name } entryPoint 50 41 0.0 (by decide)⟩

end Folding

end Timebound
