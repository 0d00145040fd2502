import Timebound.Proofs.CallOrder
import Timebound.Proofs.CyclePath

/-!
# Cycle bounds are sound

The analysis fills its table callees first, so every bound in the finished table
is the bound of its function under that same table (`Grounded`). From this alone,
by induction on runs, the cost of a run is at most the bound of the function that
was entered, provided no function calls itself more often than its limit allows.
That the table has a bound for every function that outside code can get to is the
part that needs the order.
-/

namespace Timebound

/-! ## Costs under a larger table -/

section Agreement

variable {callee other : FunctionId → Except Cause Nat}

mutual

/-- The cost of an expression stays when every known price does. -/
theorem Expr.cycles_of_known (agree : ∀ id price, callee id = .ok price → other id = .ok price) :
    ∀ (e : Expr) {total : Nat}, e.cycles callee = .ok total → e.cycles other = .ok total
  | .lit _, _, done => done
  | .var _, _, done => done
  | .global _, _, done => done
  | .load _ index, _, done => by
    simp only [Expr.cycles, bind_eq_ok_iff] at done ⊢
    obtain ⟨cost, inner, checked⟩ := done
    exact ⟨cost, Expr.cycles_of_known agree index inner, checked⟩
  | .unary _ _ operand, _, done => by
    simp only [Expr.cycles, bind_eq_ok_iff] at done ⊢
    obtain ⟨cost, inner, checked⟩ := done
    exact ⟨cost, Expr.cycles_of_known agree operand inner, checked⟩
  | .binary _ _ left right, _, done => by
    simp only [Expr.cycles, bind_eq_ok_iff] at done ⊢
    obtain ⟨leftCost, leftDone, rightCost, rightDone, checked⟩ := done
    exact ⟨leftCost, Expr.cycles_of_known agree left leftDone,
      rightCost, Expr.cycles_of_known agree right rightDone, checked⟩
  | .call id args, _, done => by
    simp only [Expr.cycles, bind_eq_ok_iff] at done ⊢
    obtain ⟨passing, argsDone, activation, known, checked⟩ := done
    exact ⟨passing, Args.cycles_of_known agree args argsDone,
      activation, agree id activation known, checked⟩

/-- The cost of arguments stays when every known price does. -/
theorem Args.cycles_of_known (agree : ∀ id price, callee id = .ok price → other id = .ok price) :
    ∀ (args : List Expr) {start total : Nat}, Args.cycles callee start args = .ok total →
      Args.cycles other start args = .ok total
  | [], _, _, done => done
  | arg :: args, _, _, done => by
    simp only [Args.cycles, bind_eq_ok_iff] at done ⊢
    obtain ⟨cost, argDone, sum, checked, argsDone⟩ := done
    exact ⟨cost, Expr.cycles_of_known agree arg argDone, sum, checked,
      Args.cycles_of_known agree args argsDone⟩

end

/-- The cost of an optional expression stays when every known price does. -/
theorem Expr.optionalCycles_of_known
    (agree : ∀ id price, callee id = .ok price → other id = .ok price) {e : Option Expr}
    {total : Nat} (done : Expr.optionalCycles callee e = .ok total) :
    Expr.optionalCycles other e = .ok total := by
  cases e with
  | none => exact done
  | some e => exact Expr.cycles_of_known agree e done

mutual

/-- The cost of a statement stays when every known price does. -/
theorem Stmt.cycles_of_known (agree : ∀ id price, callee id = .ok price → other id = .ok price) :
    ∀ (s : Stmt) {total : Nat}, s.cycles callee = .ok total → s.cycles other = .ok total
  | .bind _ _ value, _, done | .assign _ value, _, done | .setGlobal _ value, _, done
  | .emit _ value, _, done => by
    simp only [Stmt.cycles, bind_eq_ok_iff] at done ⊢
    obtain ⟨cost, inner, checked⟩ := done
    exact ⟨cost, Expr.cycles_of_known agree value inner, checked⟩
  | .store _ index value, _, done => by
    simp only [Stmt.cycles, bind_eq_ok_iff] at done ⊢
    obtain ⟨indexCost, indexDone, valueCost, valueDone, checked⟩ := done
    exact ⟨indexCost, Expr.cycles_of_known agree index indexDone,
      valueCost, Expr.cycles_of_known agree value valueDone, checked⟩
  | .eval value, _, done => by
    simp only [Stmt.cycles] at done ⊢
    exact Expr.cycles_of_known agree value done
  | .branch cond thenBody elseBody _, _, done => by
    simp only [Stmt.cycles, bind_eq_ok_iff] at done ⊢
    obtain ⟨guardCost, guardDone, thenCost, thenDone, elseCost, elseDone, checked⟩ := done
    exact ⟨guardCost, Expr.cycles_of_known agree cond.guard guardDone,
      thenCost, Block.cyclesFrom_of_known agree thenBody thenDone,
      elseCost, Block.cyclesFrom_of_known agree elseBody elseDone, checked⟩
  | .loop _ bound _ body, _, done => by
    cases limit : bound.limit? with
    | none => simp [Stmt.cycles, limit] at done
    | some trips =>
      simp only [Stmt.cycles, limit, bind_eq_ok_iff] at done ⊢
      obtain ⟨condCost, condDone, bodyCost, bodyDone, checked⟩ := done
      exact ⟨condCost, Expr.optionalCycles_of_known agree condDone,
        bodyCost, Block.cyclesFrom_of_known agree body bodyDone, checked⟩
  | .ret _, _, done => by
    simp only [Stmt.cycles, bind_eq_ok_iff] at done ⊢
    obtain ⟨cost, inner, checked⟩ := done
    exact ⟨cost, Expr.optionalCycles_of_known agree inner, checked⟩

/-- The cost of statements stays when every known price does. -/
theorem Block.cyclesFrom_of_known
    (agree : ∀ id price, callee id = .ok price → other id = .ok price) :
    ∀ (block : Block) {previous : Option Stmt} {start total : Nat},
      Block.cyclesFrom callee previous start block = .ok total →
        Block.cyclesFrom other previous start block = .ok total
  | [], _, _, _, done => done
  | s :: rest, _, _, _, done => by
    simp only [Block.cyclesFrom, bind_eq_ok_iff] at done ⊢
    obtain ⟨cost, firstDone, sum, checked, others⟩ := done
    exact ⟨cost, Stmt.cycles_of_known agree s firstDone, sum, checked,
      Block.cyclesFrom_of_known agree rest others⟩

end

end Agreement

namespace Program

/-! ## The finished table -/

/-- Whether one table has every bound of another. -/
def Includes (large small : Table FunctionId Nat) : Prop :=
  ∀ id bound, small.get? id = some bound → large.get? id = some bound

/-- A table in which every bound is the one its function has under this table. -/
def Grounded (program : Program) (bounds : Table FunctionId Nat) : Prop :=
  ∀ id bound, bounds.get? id = some bound → ∃ function, program.function? id = some function ∧
    program.functionBound bounds id function = .ok bound

/-- The bound of a function stays when the table grows. -/
theorem functionBound_of_includes {program : Program} {small large : Table FunctionId Nat}
    (grown : Includes large small) {id : FunctionId} {function : Function} {bound : Nat}
    (done : program.functionBound small id function = .ok bound) :
    program.functionBound large id function = .ok bound := by
  unfold functionBound at done ⊢
  simp only [bind_eq_ok_iff] at done ⊢
  obtain ⟨activation, cost, checked⟩ := done
  refine ⟨activation, Block.cyclesFrom_of_known (fun callee price known => ?_) _ cost, checked⟩
  unfold activationCycles at known ⊢
  by_cases self : callee = id
  · rw [if_pos self] at known ⊢
    exact known
  · rw [if_neg self] at known ⊢
    cases found : small.get? callee with
    | none => simp [found] at known
    | some held =>
      rw [grown callee held found]
      simpa [found] using known

/-- Adding a bound keeps the table grounded, keeps all bounds, and bounds the
function if it exists. -/
theorem addBound_grounded {program : Program} {bounds larger : Table FunctionId Nat}
    {id : FunctionId} (grounded : program.Grounded bounds)
    (added : program.addBound bounds id = .ok larger) :
    program.Grounded larger ∧ Includes larger bounds ∧
      ((program.function? id).isSome → (larger.get? id).isSome) := by
  unfold addBound at added
  cases found : program.function? id with
  | none =>
    simp only [found, Except.ok.injEq] at added
    subst added
    exact ⟨grounded, fun _ _ h => h, by simp⟩
  | some function =>
    simp only [found] at added
    cases computed : program.functionBound bounds id function with
    | error cause => simp [computed] at added
    | ok bound =>
      simp only [computed, Except.ok.injEq] at added
      subst added
      have grown : Includes (bounds.insert id bound) bounds := by
        intro other held known
        rw [Table.get?_insert]
        split
        · -- A function that is bounded twice gets the same bound again.
          rename_i same
          have same : other = id := Std.LawfulEqOrd.eq_of_compare same
          subst same
          obtain ⟨again, foundAgain, computedAgain⟩ := grounded other held known
          rw [found] at foundAgain
          cases foundAgain
          rw [computed] at computedAgain
          cases computedAgain
          rfl
        · exact known
      refine ⟨fun other held known => ?_, grown, fun _ => by simp [Table.get?_insert]⟩
      rw [Table.get?_insert] at known
      split at known
      · rename_i same
        have same : other = id := Std.LawfulEqOrd.eq_of_compare same
        cases known
        subst same
        exact ⟨function, found, functionBound_of_includes grown computed⟩
      · obtain ⟨owner, foundOwner, held⟩ := grounded other held known
        exact ⟨owner, foundOwner, functionBound_of_includes grown held⟩

/-- Adding bounds in a row keeps the table grounded and bounds all functions. -/
theorem foldlM_addBound_grounded {program : Program} (order : List FunctionId) :
    ∀ {bounds larger : Table FunctionId Nat}, program.Grounded bounds →
      order.foldlM program.addBound bounds = .ok larger →
        program.Grounded larger ∧ Includes larger bounds ∧
          ∀ id ∈ order, (program.function? id).isSome → (larger.get? id).isSome := by
  induction order with
  | nil =>
    intro bounds larger grounded done
    simp only [List.foldlM_nil, pure, Except.pure, Except.ok.injEq] at done
    subst done
    exact ⟨grounded, fun _ _ h => h, by simp⟩
  | cons id rest ih =>
    intro bounds larger grounded done
    rw [List.foldlM_cons, bind_eq_ok_iff] at done
    obtain ⟨middle, first, others⟩ := done
    obtain ⟨groundedMiddle, grown, bounded⟩ := addBound_grounded grounded first
    obtain ⟨groundedLarger, further, all⟩ := ih groundedMiddle others
    refine ⟨groundedLarger, fun other held known => further other held (grown other held known),
      fun other listed live => ?_⟩
    rcases List.mem_cons.mp listed with rfl | later
    · obtain ⟨bound, known⟩ := Option.isSome_iff_exists.mp (bounded live)
      rw [further other bound known]
      rfl
    · exact all other later live

/-- A successful analysis has a callee-first order, its table is grounded, and the
table bounds every function of the order that exists. -/
theorem analyze_grounded {program : Program} {profile : Option Profile} {analysis : Analysis}
    (analyzed : program.analyze profile = .ok analysis) :
    ∃ order, program.callOrder = .ok order ∧ program.Grounded analysis.bounds ∧
      ∀ id ∈ order, (program.function? id).isSome → (analysis.bounds.get? id).isSome := by
  unfold analyze at analyzed
  simp only [bind_eq_ok_iff, Except.ok.injEq] at analyzed
  obtain ⟨order, ordered, bounds, bounded, rfl⟩ := analyzed
  obtain ⟨grounded, _, all⟩ := foldlM_addBound_grounded order
    (fun id bound known => by simp at known) bounded
  exact ⟨order, ordered, grounded, all⟩

end Program

/-! ## Runs -/

/-- One of several activations counts no more than all of them. -/
theorem Activations.count_le (target : FunctionId) {runs : List Activation} {run : Activation}
    (listed : run ∈ runs) : run.count target ≤ Activations.count target runs := by
  induction runs with
  | nil => simp at listed
  | cons first others ih =>
    rw [Activations.count]
    rcases List.mem_cons.mp listed with rfl | later
    · omega
    · have below := ih later
      omega

/-- Limits kept by several activations are kept by each. -/
theorem Activations.WithinLimits.of_mem {program : Program} {opened : List FunctionId}
    {runs : List Activation} {run : Activation}
    (within : Activations.WithinLimits program opened runs) (listed : run ∈ runs) :
    run.WithinLimits program opened := by
  induction runs with
  | nil => simp at listed
  | cons first others ih =>
    rcases List.mem_cons.mp listed with rfl | later
    · exact within.1
    · exact ih within.2 later

/-- When each of several activations exceeds its price by at most a factor for
every activation of `self` in it, so do all of them together. -/
theorem Priced.cycles_le {callee : FunctionId → Except Cause Nat} (self : FunctionId)
    (factor : Nat) : ∀ {runs : List Activation} {total : Nat},
    Priced callee (runs.map Activation.id) total →
      (∀ run ∈ runs, ∀ price, callee run.id = .ok price →
        run.cycles ≤ price + factor * run.count self) →
          Activations.cycles runs ≤ total + factor * Activations.count self runs
  | [], _, .nil, _ => by simp [Activations.cycles]
  | run :: others, _, .cons known priced, each => by
    have first := each run (by simp) _ known
    have rest := priced.cycles_le self factor fun later listed =>
      each later (List.mem_cons_of_mem _ listed)
    rw [Activations.cycles, Activations.count, Nat.mul_add]
    omega

namespace Program

/-- The bound of a function is the cost of one activation, times the limit if it
calls itself within one. -/
theorem functionBound_cases {program : Program} {bounds : Table FunctionId Nat} {id : FunctionId}
    {function : Function} {bound : Nat}
    (done : program.functionBound bounds id function = .ok bound) :
    ∃ activation, Block.cycles (program.activationCycles bounds id function.recursionLimit.isSome)
        function.body = .ok activation ∧
      ((∃ limit, function.calls id = true ∧ function.recursionLimit = some limit ∧
          bound = activation * limit) ∨
        (bound = activation ∧ (function.calls id = false ∨ function.recursionLimit = none))) := by
  unfold functionBound at done
  simp only [bind_eq_ok_iff] at done
  obtain ⟨activation, cost, checked⟩ := done
  refine ⟨activation, cost, ?_⟩
  cases limited : function.recursionLimit with
  | none =>
    simp only [limited, Except.ok.injEq] at checked
    exact .inr ⟨checked.symm, .inr rfl⟩
  | some limit =>
    simp only [limited] at checked
    split at checked
    · rename_i recursive
      exact .inl ⟨limit, recursive, rfl, (checkedCycles_eq_ok_iff.mp checked).1.symm⟩
    · rename_i straight
      simp only [Except.ok.injEq] at checked
      exact .inr ⟨checked.symm, .inl (by simpa using straight)⟩

/-- What a call from the body of `self` is charged: nothing for `self` itself, else
the bound of the callee. -/
theorem activationCycles_eq_ok {program : Program} {bounds : Table FunctionId Nat}
    {self callee : FunctionId} {limited : Bool} {price : Nat}
    (known : program.activationCycles bounds self limited callee = .ok price) :
    (callee = self ∧ limited = true) ∨ (callee ≠ self ∧ bounds.get? callee = some price) := by
  unfold activationCycles at known
  by_cases same : callee = self
  · rw [if_pos same] at known
    cases limited with
    | false => simp at known
    | true => exact .inl ⟨same, rfl⟩
  · rw [if_neg same] at known
    cases found : bounds.get? callee with
    | none => simp [found] at known
    | some bound =>
      simp only [found, Except.ok.injEq] at known
      exact .inr ⟨same, by rw [known]⟩

/-- The limit that binds a function is the one written at it, if it calls itself. -/
theorem activationLimit?_eq {program : Program} {id : FunctionId} {function : Function}
    (found : program.function? id = some function) (recursive : function.calls id = true) :
    program.activationLimit? id = function.recursionLimit := by
  simp [activationLimit?, found, recursive]

/-- What the table says about the cost of a run. The second part is what a recursive
call needs: it has no price of its own, and the activations that it counts pay for it. -/
structure Covered (program : Program) (bounds : Table FunctionId Nat) (run : Activation) :
    Prop where
  /-- The run costs at most the bound of its function. -/
  bounded : ∀ bound, bounds.get? run.id = some bound → run.cycles ≤ bound
  /-- The run costs at most one activation for each time its function is activated in it. -/
  counted : ∀ function activation, program.function? run.id = some function →
    Block.cycles (program.activationCycles bounds run.id function.recursionLimit.isSome)
      function.body = .ok activation → run.cycles ≤ activation * run.count run.id

section Body

variable {program : Program} {bounds : Table FunctionId Nat} {id : FunctionId}
  {function : Function} {own activation : Nat} {calls : List Activation} {ends : Bool}

/-- Counting activations pays for a path and the covered runs below it. -/
theorem path_le_mul_count (found : program.function? id = some function)
    (path : Block.Path none function.body own (calls.map Activation.id) ends)
    (cost : Block.cycles (program.activationCycles bounds id function.recursionLimit.isSome)
      function.body = .ok activation)
    (covered : ∀ run ∈ calls, program.Covered bounds run) :
    own + Activations.cycles calls ≤ activation * (1 + Activations.count id calls) := by
  obtain ⟨price, priced, paid⟩ := path.le_cycles cost
  have sum := priced.cycles_le id activation fun run listed charge charged => by
    rcases activationCycles_eq_ok charged with ⟨same, _⟩ | ⟨_, known⟩
    · have recursive := (covered run listed).counted function activation (same ▸ found)
        (same ▸ cost)
      rw [same] at recursive
      omega
    · have direct := (covered run listed).bounded charge known
      omega
  rw [Nat.mul_add]
  omega

/-- The cost of one activation pays for a path and the covered runs below it, if
the function does not call itself or may not. -/
theorem path_le_activation
    (path : Block.Path none function.body own (calls.map Activation.id) ends)
    (cost : Block.cycles (program.activationCycles bounds id function.recursionLimit.isSome)
      function.body = .ok activation)
    (covered : ∀ run ∈ calls, program.Covered bounds run)
    (straight : function.calls id = false ∨ function.recursionLimit = none) :
    own + Activations.cycles calls ≤ activation := by
  obtain ⟨price, priced, paid⟩ := path.le_cycles cost
  have sum := priced.cycles_le id 0 fun run listed charge charged => by
    rcases activationCycles_eq_ok charged with ⟨same, limited⟩ | ⟨_, known⟩
    · have called := path.mem_nodes (List.mem_map.mpr ⟨run, listed, same⟩)
      have recursive : function.calls id = true := by
        simpa [Function.calls, Function.callees] using Block.mem_callees.mpr called
      rcases straight with no | no
      · simp [no] at recursive
      · simp [no] at limited
    · have direct := (covered run listed).bounded charge known
      omega
  omega

end Body

/-- A grounded table covers every run that keeps the limits. -/
theorem Runs.covered {program : Program} {bounds : Table FunctionId Nat}
    (grounded : program.Grounded bounds) {run : Activation} (runs : program.Runs run) :
    ∀ {opened : List FunctionId}, run.WithinLimits program opened →
      (∀ id ∈ opened, ∀ limit, program.activationLimit? id = some limit → run.count id ≤ limit) →
        program.Covered bounds run := by
  induction runs with
  | @mk id own calls function ends found path below ih =>
    intro opened within kept
    have self : (Activation.mk id own calls).count id = 1 + Activations.count id calls := by
      simp [Activation.count]
    have total : (Activation.mk id own calls).cycles = own + Activations.cycles calls := by
      rw [Activation.cycles]
    have ownLimit : ∀ limit, program.activationLimit? id = some limit →
        (Activation.mk id own calls).count id ≤ limit := by
      intro limit binding
      by_cases inside : id ∈ opened
      · exact kept id inside limit binding
      · exact within.1 inside limit binding
    have covered : ∀ run ∈ calls, program.Covered bounds run := by
      intro run listed
      refine ih run listed (within.2.of_mem listed) fun target nested limit binding => ?_
      have part := Activations.count_le target listed
      have whole : Activations.count target calls ≤ (Activation.mk id own calls).count target := by
        rw [Activation.count]
        omega
      rcases List.mem_cons.mp nested with rfl | outer
      · have within := ownLimit limit binding
        omega
      · have within := kept target outer limit binding
        omega
    constructor
    · intro bound known
      obtain ⟨_, foundAgain, computed⟩ := grounded id bound known
      cases found.symm.trans foundAgain
      obtain ⟨activation, cost, shape⟩ := functionBound_cases computed
      rw [total]
      rcases shape with ⟨limit, recursive, limited, rfl⟩ | ⟨rfl, straight⟩
      · have allowed := ownLimit limit ((activationLimit?_eq found recursive).trans limited)
        have paid := path_le_mul_count found path cost covered
        exact Nat.le_trans paid (Nat.mul_le_mul_left activation (self ▸ allowed))
      · exact path_le_activation path cost covered straight
    · intro _ activation foundAgain cost
      cases found.symm.trans foundAgain
      rw [total]
      exact self ▸ path_le_mul_count found path cost covered

/-- Bounds are sound: when the analysis succeeds, every function that outside code
can get to has a bound, and no run of it costs more, provided every function that
calls itself keeps its limit in each outermost call. -/
theorem cycles_le_bound {program : Program} {profile : Option Profile} {analysis : Analysis}
    (analyzed : program.analyze profile = .ok analysis) {id : FunctionId}
    (reached : program.Reaches id) :
    ∃ bound, analysis.bound? id = some bound ∧ ∀ run : Activation, run.id = id →
      program.Runs run → run.WithinLimits program [] → run.cycles ≤ bound := by
  obtain ⟨order, ordered, grounded, all⟩ := analyze_grounded analyzed
  have listed := mem_callOrder_of_reaches ordered reached
  obtain ⟨bound, known⟩ := Option.isSome_iff_exists.mp (all id listed reached.isSome)
  refine ⟨bound, known, fun run entered runs within => ?_⟩
  subst entered
  exact (runs.covered grounded within (by simp)).bounded bound known

/-- An entry point that twice calls a function which may call itself once more. -/
def descent : Program where
  functions.slots := [
    some {
      name := entryPoint
      body := [.loop none (.exact 2) none [.eval (.call ⟨1⟩ [])]] },
    some {
      name := "descend"
      body := [.branch (.lit (.ofBool true)) [.eval (.call ⟨1⟩ [])] [] none]
      recursionLimit := some 2 }]

/-- A run of `descent` in which both calls go one level down. -/
def descentRun : Activation :=
  .mk ⟨0⟩ 28 [.mk ⟨1⟩ 13 [.mk ⟨1⟩ 3 []], .mk ⟨1⟩ 13 [.mk ⟨1⟩ 3 []]]

/-- The run of `descent` is one of its runs. -/
theorem runs_descentRun : descent.Runs descentRun := by
  have leaf : descent.Runs (.mk ⟨1⟩ 3 []) :=
    .mk rfl (.next (.branchElse (.lit (.ofBool true)) .nil) .nil) (by simp)
  have inner : descent.Runs (.mk ⟨1⟩ 13 [.mk ⟨1⟩ 3 []]) :=
    .mk rfl (.next (.branchThen (.lit (.ofBool true)) (.next (.eval (.call ⟨1⟩ [])) .nil)) .nil)
      (by simpa using leaf)
  have turn : Block.Path none [.eval (.call ⟨1⟩ [])] 10 [⟨1⟩] false :=
    .next (.eval (.call ⟨1⟩ [])) .nil
  exact .mk rfl (.next (.loop rfl (.turn turn (.turn turn .done))) .nil) (by simpa using inner)

/-- The analysis gives the entry point of `descent` 80 cycles, of which the run
above takes 60. -/
theorem cycles_le_bound_descent : ∃ analysis, descent.analyze none = .ok analysis ∧
    descent.Reaches ⟨0⟩ ∧ descent.Runs descentRun ∧ descentRun.WithinLimits descent [] ∧
      analysis.bound? ⟨0⟩ = some 80 ∧ descentRun.cycles = 60 ∧ descentRun.cycles ≤ 80 := by
  obtain ⟨analysis, analyzed⟩ : ∃ analysis, descent.analyze none = .ok analysis := ⟨_, rfl⟩
  have reached : descent.Reaches ⟨0⟩ := .root rfl rfl
  have free : descent.activationLimit? ⟨0⟩ = none := by decide
  have twice : descent.activationLimit? ⟨1⟩ = some 2 := by decide
  have within : descentRun.WithinLimits descent [] := by
    simp [descentRun, Activation.WithinLimits, Activations.WithinLimits, Activation.count,
      Activations.count, free, twice]
  have computed : analysis.bound? ⟨0⟩ = some 80 := by
    cases analyzed
    rfl
  obtain ⟨bound, known, covers⟩ := cycles_le_bound analyzed reached
  cases computed.symm.trans known
  exact ⟨analysis, analyzed, reached, runs_descentRun, within, computed, rfl,
    covers descentRun rfl runs_descentRun within⟩

end Program

end Timebound
