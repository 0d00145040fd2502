import Timebound.Proofs.CriticalFunctions
import Timebound.Proofs.Reachability

/-!
# Analysis of the live part

The live part of a program is what outside code can get to. A program that holds exactly
the live part of another one, in the same slots (`Program.LivePart`), has the same
reachable sets, the same callee-first order or the same failure to have one, the same
bounds and the same critical paths. So the analysis cannot tell the two apart
(`Program.LivePart.analyze_eq`): dead code influences neither a result nor an error.
-/

namespace Timebound

/-- Steps that agree on the items of a list agree on the whole list. -/
theorem foldlM_congr {ε σ α : Type} {step other : σ → α → Except ε σ} {items : List α}
    (same : ∀ state, ∀ item ∈ items, step state item = other state item) (start : σ) :
    items.foldlM step start = items.foldlM other start := by
  induction items generalizing start with
  | nil => rfl
  | cons item rest ih =>
    have first := same start item List.mem_cons_self
    have others := ih fun state later listed => same state later (List.mem_cons_of_mem _ listed)
    rw [List.foldlM_cons, List.foldlM_cons, first]
    congr 1
    exact funext others

/-! ## Dependence of costs on callees -/

section Costs

variable {callee other : FunctionId → Except Cause Nat}

mutual

/-- The cost of an expression depends on the functions it calls only. -/
theorem Expr.cycles_congr : ∀ e : Expr,
    (∀ id args, .call id args ∈ e.nodes → callee id = other id) → e.cycles callee = e.cycles other
  | .lit _, _ | .var _, _ | .global _, _ => rfl
  | .load _ index, same => by
    have inner := Expr.cycles_congr index fun id args called =>
      same id args (by simp [Expr.nodes, called])
    rw [Expr.cycles, Expr.cycles, inner]
  | .unary _ _ operand, same => by
    have inner := Expr.cycles_congr operand fun id args called =>
      same id args (by simp [Expr.nodes, called])
    rw [Expr.cycles, Expr.cycles, inner]
  | .binary _ _ left right, same => by
    have first := Expr.cycles_congr left fun id args called =>
      same id args (by simp [Expr.nodes, called])
    have second := Expr.cycles_congr right fun id args called =>
      same id args (by simp [Expr.nodes, called])
    rw [Expr.cycles, Expr.cycles, first, second]
  | .call id passed, same => by
    have inner := Args.cycles_congr passed CycleCost.call fun id args called =>
      same id args (by simp [Expr.nodes, called])
    have price := same id passed (by simp [Expr.nodes])
    rw [Expr.cycles, Expr.cycles, inner, price]

/-- The cost of arguments depends on the functions they call only. -/
theorem Args.cycles_congr : ∀ (passed : List Expr) (total : Nat),
    (∀ id args, .call id args ∈ Args.nodes passed → callee id = other id) →
      Args.cycles callee total passed = Args.cycles other total passed
  | [], _, _ => rfl
  | arg :: passed, total, same => by
    have first := Expr.cycles_congr arg fun id args called =>
      same id args (by simp [Args.nodes, called])
    have others (sum : Nat) := Args.cycles_congr passed sum fun id args called =>
      same id args (by simp [Args.nodes, called])
    simp only [Args.cycles, first, others]

end

/-- The cost of an optional expression depends on the functions it calls only. -/
theorem Expr.optionalCycles_congr {e : Option Expr}
    (same : ∀ id args, .call id args ∈ e.toList.flatMap Expr.nodes → callee id = other id) :
    Expr.optionalCycles callee e = Expr.optionalCycles other e := by
  cases e with
  | none => rfl
  | some e => exact Expr.cycles_congr e fun id args called => same id args (by simp [called])

mutual

/-- The cost of a statement depends on the functions it calls only. -/
theorem Stmt.cycles_congr : ∀ s : Stmt,
    (∀ id args, .call id args ∈ s.nodes → callee id = other id) → s.cycles callee = s.cycles other
  | .bind _ _ value, same | .assign _ value, same | .setGlobal _ value, same
  | .emit _ value, same | .eval value, same => by
    have inner := Expr.cycles_congr value fun id args called =>
      same id args (by simp [Stmt.nodes, called])
    simp only [Stmt.cycles, inner]
  | .store _ index value, same => by
    have first := Expr.cycles_congr index fun id args called =>
      same id args (by simp [Stmt.nodes, called])
    have second := Expr.cycles_congr value fun id args called =>
      same id args (by simp [Stmt.nodes, called])
    simp only [Stmt.cycles, first, second]
  | .branch cond thenBody elseBody _, same => by
    have decided := Expr.cycles_congr cond.guard fun id args called =>
      same id args (by simp [Stmt.nodes, cond.nodes_guard_subset called])
    have thenSame := Block.cyclesFrom_congr thenBody none 0 fun id args called =>
      same id args (by simp [Stmt.nodes, called])
    have elseSame := Block.cyclesFrom_congr elseBody none 0 fun id args called =>
      same id args (by simp [Stmt.nodes, called])
    simp only [Stmt.cycles, decided, thenSame, elseSame]
  | .loop _ _ condition body, same => by
    have decided : Expr.optionalCycles callee condition = Expr.optionalCycles other condition :=
      Expr.optionalCycles_congr fun id args called => same id args
        (by rw [Stmt.nodes]; exact List.mem_append_left _ called)
    have bodySame := Block.cyclesFrom_congr body none 0 fun id args called =>
      same id args (by simp [Stmt.nodes, called])
    simp only [Stmt.cycles, decided, bodySame]
  | .ret value, same => by
    have inner : Expr.optionalCycles callee value = Expr.optionalCycles other value :=
      Expr.optionalCycles_congr fun id args called => same id args (by rwa [Stmt.nodes])
    simp only [Stmt.cycles, inner]

/-- The cost of statements depends on the functions they call only. -/
theorem Block.cyclesFrom_congr : ∀ (block : Block) (previous : Option Stmt) (total : Nat),
    (∀ id args, .call id args ∈ Block.nodes block → callee id = other id) →
      Block.cyclesFrom callee previous total block = Block.cyclesFrom other previous total block
  | [], _, _, _ => rfl
  | s :: rest, previous, total, same => by
    have first := Stmt.cycles_congr s fun id args called =>
      same id args (by simp [Block.nodes, called])
    have others (sum : Nat) := Block.cyclesFrom_congr rest (some s) sum fun id args called =>
      same id args (by simp [Block.nodes, called])
    simp only [Block.cyclesFrom, first, others]

end

end Costs

namespace Program

/-- The bound of a function depends on the bounds and the names of its callees only. -/
theorem functionBound_congr {program other : Program} {bounds table : Table FunctionId Nat}
    {id : FunctionId} {function : Function}
    (same : ∀ callee ∈ function.callees, callee ≠ id → table.get? callee = bounds.get? callee ∧
      other.function? callee = program.function? callee) :
    other.functionBound table id function = program.functionBound bounds id function := by
  have cost : Block.cycles (other.activationCycles table id function.recursionLimit.isSome)
      function.body =
      Block.cycles (program.activationCycles bounds id function.recursionLimit.isSome)
        function.body := by
    refine Block.cyclesFrom_congr function.body none 0 fun callee args called => ?_
    rw [activationCycles, activationCycles]
    by_cases self : callee = id
    · rw [if_pos self, if_pos self]
    · have ⟨sameBound, sameTarget⟩ := same callee (Block.mem_callees.mpr ⟨args, called⟩) self
      have label : other.functionLabel callee = program.functionLabel callee := by
        rw [functionLabel, functionLabel, sameTarget]
      rw [if_neg self, if_neg self, sameBound, label]
  rw [functionBound, functionBound, cost]

/-- The way down from a function depends on the functions that have bounds only. -/
theorem descend_congr {program other : Program} {profile : Option Profile}
    {bounds : Table FunctionId Nat}
    (same : ∀ id, (bounds.get? id).isSome = true → other.function? id = program.function? id)
    (length : Nat) : ∀ {visited : List FunctionId} {current : FunctionId},
      (bounds.get? current).isSome = true → other.descend profile bounds length visited current =
        program.descend profile bounds length visited current := by
  have ranked (caller : Function) (call : FunctionId × Nat) :
      other.rankedCallee? profile bounds caller call =
        program.rankedCallee? profile bounds caller call := by
    rw [rankedCallee?, rankedCallee?]
    cases known : bounds.get? call.1 with
    | none => cases other.function? call.1 <;> cases program.function? call.1 <;> rfl
    | some bound => rw [same call.1 (by rw [known]; rfl)]
  have next (visited : List FunctionId) {current : FunctionId}
      (bounded : (bounds.get? current).isSome = true) :
      other.nextOnPath? profile bounds visited current =
        program.nextOnPath? profile bounds visited current := by
    rw [nextOnPath?, nextOnPath?, same current bounded]
    simp only [funext (ranked _)]
  induction length with
  | zero => exact fun _ => rfl
  | succ length ih =>
    intro visited current bounded
    rw [descend, descend, next visited bounded]
    cases found : program.nextOnPath? profile bounds visited current with
    | none => rfl
    | some entry => simp only [ih (nextOnPath?_bounded found)]

/-! ## The live part -/

/-- A program that holds what outside code can get to in another one, and nothing else. -/
structure LivePart (program left : Program) : Prop where
  /-- The functions are the ones that outside code can get to. -/
  function?_iff : ∀ id function, left.function? id = some function ↔
    program.function? id = some function ∧ program.Reaches id
  /-- The globals are the ones that outside code can get to. -/
  global?_iff : ∀ id global, left.global? id = some global ↔
    program.global? id = some global ∧ program.ReachesGlobal id
  /-- The functions are in their slots. -/
  functionSlots : left.functions.slotCount = program.functions.slotCount
  /-- The globals are in their slots. -/
  globalSlots : left.globals.slotCount = program.globals.slotCount

namespace LivePart

variable {program left : Program} (live : program.LivePart left)

include live

/-- Functions that outside code can get to are the same in the live part. -/
theorem function?_of_reaches {id : FunctionId} (reached : program.Reaches id) :
    left.function? id = program.function? id := by
  refine Option.ext fun function => ?_
  rw [live.function?_iff, and_iff_left reached]

/-- The live part finds the same callees, whether they exist or not. -/
theorem function?_of_called {id callee : FunctionId} {function : Function}
    (reached : program.Reaches id) (found : program.function? id = some function)
    (called : callee ∈ function.callees) : left.function? callee = program.function? callee := by
  cases existing : program.function? callee with
  | some target => rw [live.function?_of_reaches (.call reached found called existing), existing]
  | none =>
    refine Option.eq_none_iff_forall_ne_some.mpr fun target there => ?_
    have present := ((live.function?_iff callee target).mp there).1
    rw [existing] at present
    exact absurd present nofun

/-- Every function of the live part can be got to. -/
theorem reaches_of_isSome {id : FunctionId} (present : (left.function? id).isSome = true) :
    program.Reaches id := by
  obtain ⟨function, found⟩ := Option.isSome_iff_exists.mp present
  exact ((live.function?_iff id function).mp found).2

/-- Outside code can get to the same functions of the live part. -/
theorem reaches_iff {id : FunctionId} : left.Reaches id ↔ program.Reaches id := by
  constructor
  · intro reached
    cases reached with
    | root found _ => exact ((live.function?_iff _ _).mp found).2
    | call _ _ _ existing => exact ((live.function?_iff _ _).mp existing).2
  · intro reached
    induction reached with
    | root found isRoot =>
      exact .root ((live.function?_iff _ _).mpr ⟨found, .root found isRoot⟩) isRoot
    | call reached found called existing ih =>
      exact .call ih ((live.function?_iff _ _).mpr ⟨found, reached⟩) called
        ((live.function?_iff _ _).mpr ⟨existing, .call reached found called existing⟩)

/-- Outside code can get to the same globals of the live part. -/
theorem reachesGlobal_iff {id : GlobalId} : left.ReachesGlobal id ↔ program.ReachesGlobal id := by
  constructor
  · intro reached
    cases reached with
    | exported found _ => exact ((live.global?_iff _ _).mp found).2
    | mention reached found mentioned =>
      exact .mention (live.reaches_iff.mp reached) ((live.function?_iff _ _).mp found).1 mentioned
  · intro reached
    cases reached with
    | exported found isExported =>
      exact .exported ((live.global?_iff _ _).mpr ⟨found, .exported found isExported⟩) isExported
    | mention reached found mentioned =>
      exact .mention (live.reaches_iff.mpr reached) ((live.function?_iff _ _).mpr ⟨found, reached⟩)
        mentioned

/-- The search finds the same functions and globals in the live part. -/
theorem reachable_eq : left.reachable = program.reachable := by
  have functions : left.reachable.functions = program.reachable.functions := by
    refine OrderedSet.ext_keys fun id => ?_
    rw [mem_reachable_functions, mem_reachable_functions, live.reaches_iff]
  have globals : left.reachable.globals = program.reachable.globals := by
    refine OrderedSet.ext_keys fun id => ?_
    rw [mem_reachable_globals, mem_reachable_globals, live.reachesGlobal_iff]
  have parts (one : Program) :
      one.reachable = ⟨one.reachable.functions, one.reachable.globals⟩ := rfl
  rw [parts left, parts program, functions, globals]

/-! ## The order -/

/-- The live part has the same roots, in the same order. -/
theorem rootEntries_eq : left.functions.entries.filter (fun entry => entry.2.isRoot) =
    program.functions.entries.filter fun entry => entry.2.isRoot := by
  rw [Arena.entries_eq, Arena.entries_eq, live.functionSlots, List.filter_filterMap,
    List.filter_filterMap]
  refine List.filterMap_congr fun slot _ => ?_
  refine Option.ext fun entry => ?_
  have found (function : Function) (isRoot : function.isRoot = true) :
      left.functions.get? ⟨slot⟩ = some function ↔ program.functions.get? ⟨slot⟩ = some function :=
    (live.function?_iff ⟨slot⟩ function).trans
      (and_iff_left_of_imp fun there => .root there isRoot)
  simp only [Option.filter_eq_some_iff, Option.map_eq_some_iff]
  grind

/-- The calls of a function that outside code can get to have the same first fault. -/
theorem callFaults_eq {id : FunctionId} {function : Function} (active : List FunctionId)
    (reached : program.Reaches id) (found : program.function? id = some function) :
    function.callees.reverse.findSome? (left.callFault? active id function) =
      function.callees.reverse.findSome? (program.callFault? active id function) := by
  rw [← List.head?_filterMap, ← List.head?_filterMap]
  congr 1
  refine List.filterMap_congr fun callee called => ?_
  have target := live.function?_of_called reached found (List.mem_reverse.mp called)
  rw [callFault?, callFault?, target]

/-- A visit of a function that outside code can get to goes the same way. -/
theorem visit_eq (depth : Nat) : ∀ {active finished : List FunctionId} {id : FunctionId},
    program.Reaches id →
      left.visit depth active finished id = program.visit depth active finished id := by
  induction depth with
  | zero => exact fun _ => rfl
  | succ depth ih =>
    intro active finished id reached
    rw [visit, visit, live.function?_of_reaches reached]
    cases found : program.function? id with
    | none => rfl
    | some function =>
      simp only [live.callFaults_eq active reached found]
      cases faults : function.callees.reverse.findSome? (program.callFault? active id function) with
      | some cause => rfl
      | none =>
        -- Without a fault the callees exist, so outside code can get to them too.
        have below : (function.callees.filter (· != id)).foldlM
            (left.visit depth (id :: active)) finished =
            (function.callees.filter (· != id)).foldlM
              (program.visit depth (id :: active)) finished := by
          refine foldlM_congr (fun state callee listed => ih ?_) finished
          obtain ⟨called, other⟩ := List.mem_filter.mp listed
          have sound := List.findSome?_eq_none_iff.mp faults callee (List.mem_reverse.mpr called)
          have apart : callee ≠ id := by simpa using other
          rcases callFault?_eq_none sound with ⟨same, _⟩ | ⟨_, existing, _⟩
          · exact absurd same apart
          · obtain ⟨target, there⟩ := Option.isSome_iff_exists.mp existing
            exact .call reached found called there
        simp only [below]

/-- The live part has the same callee-first order, or the same failure to have one. -/
theorem callOrder_eq : left.callOrder = program.callOrder := by
  have visits : ((program.functions.entries.filter fun entry => entry.2.isRoot).map (·.1)).foldlM
      (left.visit program.functions.slotCount []) [] =
      ((program.functions.entries.filter fun entry => entry.2.isRoot).map (·.1)).foldlM
        (program.visit program.functions.slotCount []) [] := by
    refine foldlM_congr (fun state id listed => live.visit_eq _ ?_) []
    obtain ⟨⟨_, function⟩, entry, rfl⟩ := List.mem_map.mp listed
    obtain ⟨present, isRoot⟩ := List.mem_filter.mp entry
    exact .root (Arena.mem_entries.mp present) isRoot
  rw [callOrder, callOrder, live.rootEntries_eq, live.functionSlots]
  simp only [visits]

/-- Outside code can get to every function of the order. -/
theorem reaches_of_ordered {order : List FunctionId} (ordered : program.callOrder = .ok order)
    {id : FunctionId} (listed : id ∈ order) : program.Reaches id := by
  have settled := (callOrder_settled (live.callOrder_eq.trans ordered)).1
  exact live.reaches_of_isSome (settled.isSome (List.mem_reverse.mpr listed))

/-! ## Bounds and paths -/

/-- The bound of a function that outside code can get to is the same. -/
theorem addBound_eq {id : FunctionId} (reached : program.Reaches id)
    (bounds : Table FunctionId Nat) : left.addBound bounds id = program.addBound bounds id := by
  rw [addBound, addBound, live.function?_of_reaches reached]
  cases found : program.function? id with
  | none => rfl
  | some function =>
    have bound : left.functionBound bounds id function = program.functionBound bounds id function :=
      functionBound_congr fun callee called _ =>
        ⟨rfl, live.function?_of_called reached found called⟩
    simp only [bound]

/-- The analysis of the live part has the same result, or the same failure. -/
theorem analyze_eq (profile : Option Profile) : left.analyze profile = program.analyze profile := by
  rw [analyze, analyze, live.callOrder_eq, live.rootEntries_eq, live.reachable_eq]
  cases ordered : program.callOrder with
  | error failure => rfl
  | ok order =>
    have tables : order.foldlM left.addBound .empty = order.foldlM program.addBound .empty :=
      foldlM_congr (fun bounds id listed =>
        live.addBound_eq (live.reaches_of_ordered ordered listed) bounds) _
    simp only [bind, Except.bind, tables]
    cases bounded : order.foldlM program.addBound .empty with
    | error failure => rfl
    | ok bounds =>
      have same (id : FunctionId) (known : (bounds.get? id).isSome = true) :
          left.function? id = program.function? id := by
        have listed := (mem_order_of_bound bounded known).resolve_left (by simp)
        exact live.function?_of_reaches (live.reaches_of_ordered ordered listed)
      have path (root : FunctionId × Function) :
          left.criticalPath? profile bounds root = program.criticalPath? profile bounds root := by
        rw [criticalPath?, criticalPath?, live.functionSlots]
        cases known : bounds.get? root.1 with
        | none => rfl
        | some bound =>
          have way : left.descend profile bounds program.functions.slotCount [root.1] root.1 =
              program.descend profile bounds program.functions.slotCount [root.1] root.1 :=
            descend_congr same _ (by rw [known]; rfl)
          rw [Option.map_some, Option.map_some, way]
      simp only [funext path]

end LivePart

end Program

end Timebound
