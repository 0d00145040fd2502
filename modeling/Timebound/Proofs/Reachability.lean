import Timebound.Proofs.CallExpansion
import Timebound.Proofs.CallOrder
import Timebound.Proofs.References
import Timebound.Timing.Reachability

/-!
# The reachable part of a program

The search for reachable functions finds the least set that holds the roots and is closed
under calls of existing functions (`View.mem_reachableFunctions`), whatever the calls look
like: they may form cycles or go to functions that do not exist. Every function is
followed once, so the capacity of a view is enough when all its functions lie below it
(`View.Sized`). For a program this set is the inductive one
(`Program.mem_reachable_functions`), and the calls and accesses that it follows are those
that stand anywhere in a body (`Program.reaches_iff_used`). Views that find the same
entries have the same reachable part (`View.reachable_congr`).
-/

namespace Timebound

/-- Dropping repetitions leaves each element once. -/
theorem nodup_eraseDups {α : Type} [DecidableEq α] (list : List α) : list.eraseDups.Nodup := by
  cases list with
  | nil => simp
  | cons first rest =>
    rw [List.eraseDups_cons, List.nodup_cons]
    refine ⟨?_, nodup_eraseDups _⟩
    rw [List.mem_eraseDups, List.mem_filter]
    simp
termination_by list.length
decreasing_by
  have fewer := List.length_filter_le (fun other => !other == first) rest
  rw [List.length_cons]
  omega

namespace View

variable {view other : View}

/-! ## Existing callees -/

/-- The existing callees of a function. -/
theorem mem_existingCallees {id callee : FunctionId} :
    callee ∈ view.existingCallees id ↔ (∃ function, view.function? id = some function ∧
      callee ∈ function.callees) ∧ (view.function? callee).isSome = true := by
  unfold existingCallees
  rw [List.mem_filter]
  cases view.function? id <;> simp

/-- Each existing callee of a function is listed once. -/
theorem nodup_existingCallees (id : FunctionId) : (view.existingCallees id).Nodup := by
  unfold existingCallees
  cases view.function? id with
  | none => simp
  | some function => exact (nodup_eraseDups _).filter _

/-! ## The search -/

/-- A search in progress: the functions found so far are those whose calls have been
followed and those in the queue. -/
structure Searched (view : View) (followed queue : List FunctionId)
    (found : OrderedSet FunctionId) : Prop where
  /-- No function is met twice. -/
  distinct : (followed ++ queue).Nodup
  /-- The functions met are the ones found. -/
  members : ∀ id, id ∈ found.keys ↔ id ∈ followed ++ queue
  /-- All of them exist. -/
  existing : ∀ id ∈ followed ++ queue, (view.function? id).isSome = true
  /-- The existing callees of the followed ones are found. -/
  closed : ∀ id ∈ followed, ∀ callee ∈ view.existingCallees id, callee ∈ found.keys

/-- The callees that a step of the search adds to the queue. -/
def freshCallees (view : View) (found : OrderedSet FunctionId) (id : FunctionId) :
    List FunctionId :=
  (view.existingCallees id).filter fun callee => !found.contains callee

/-- Fresh callees are existing callees that have not been found. -/
theorem mem_freshCallees {found : OrderedSet FunctionId} {id callee : FunctionId} :
    callee ∈ view.freshCallees found id ↔
      callee ∈ view.existingCallees id ∧ callee ∉ found.keys := by
  rw [freshCallees, List.mem_filter, ← OrderedSet.contains_iff]
  simp

/-- A step of the search follows one function of the queue. -/
theorem Searched.follow {followed queue : List FunctionId} {found : OrderedSet FunctionId}
    {id : FunctionId} (searched : view.Searched followed (id :: queue) found) :
    view.Searched (followed ++ [id]) (queue ++ view.freshCallees found id)
      (OrderedSet.addAll found (view.freshCallees found id)) := by
  have regroup : (followed ++ [id]) ++ (queue ++ view.freshCallees found id) =
      (followed ++ id :: queue) ++ view.freshCallees found id := by simp
  constructor
  · rw [regroup, List.nodup_append]
    refine ⟨searched.distinct, (nodup_existingCallees id).filter _, ?_⟩
    intro old met callee fresh same
    exact (mem_freshCallees.mp fresh).2 ((searched.members callee).mpr (same ▸ met))
  · intro callee
    rw [regroup, OrderedSet.mem_keys_addAll, searched.members, ← List.mem_append]
  · intro callee met
    rw [regroup, List.mem_append] at met
    rcases met with old | fresh
    · exact searched.existing callee old
    · exact (mem_existingCallees.mp (mem_freshCallees.mp fresh).1).2
  · intro caller listed callee called
    rw [OrderedSet.mem_keys_addAll]
    by_cases old : callee ∈ found.keys
    · exact .inl old
    · rcases List.mem_append.mp listed with earlier | latest
      · exact absurd (searched.closed caller earlier callee called) old
      · cases List.mem_singleton.mp latest
        exact .inr (mem_freshCallees.mpr ⟨called, old⟩)

/-- A search in progress has found no more functions than lie below a size. -/
theorem Searched.length_le {followed queue : List FunctionId} {found : OrderedSet FunctionId}
    (searched : view.Searched followed queue found) {size : Nat}
    (finds : FindsBelow view.function? size) : followed.length + queue.length ≤ size := by
  rw [← List.length_append]
  refine Program.length_le_of_slot_lt searched.distinct fun id met => ?_
  obtain ⟨function, there⟩ := Option.isSome_iff_exists.mp (searched.existing id met)
  exact finds id function there

/-- With enough steps the search follows every function it finds. -/
theorem Searched.close {size : Nat} (finds : FindsBelow view.function? size) (steps : Nat) :
    ∀ {followed queue : List FunctionId} {found : OrderedSet FunctionId},
      view.Searched followed queue found → size ≤ steps + followed.length →
        ∃ all, view.Searched all [] (view.close steps queue found) ∧
          ∀ id ∈ found.keys, id ∈ (view.close steps queue found).keys := by
  induction steps with
  | zero =>
    intro followed queue found searched enough
    have counted := searched.length_le finds
    have empty : queue = [] := List.eq_nil_of_length_eq_zero (by omega)
    rw [empty] at searched ⊢
    exact ⟨followed, searched, fun _ old => old⟩
  | succ steps ih =>
    intro followed queue found searched enough
    cases queue with
    | nil => exact ⟨followed, searched, fun _ old => old⟩
    | cons id queue =>
      have longer : (followed ++ [id]).length = followed.length + 1 := by simp
      obtain ⟨all, finished, kept⟩ := ih searched.follow (by omega)
      exact ⟨all, finished, fun old listed =>
        kept old (OrderedSet.mem_keys_addAll.mpr (.inl listed))⟩

/-- The search finds only what has to be in every set that is closed under calls. -/
theorem kept_of_mem_close {kept : FunctionId → Prop}
    (called : ∀ id callee, kept id → callee ∈ view.existingCallees id → kept callee) (steps : Nat) :
    ∀ {queue : List FunctionId} {found : OrderedSet FunctionId}, (∀ id ∈ queue, kept id) →
      (∀ id ∈ found.keys, kept id) → ∀ id ∈ (view.close steps queue found).keys, kept id := by
  induction steps with
  | zero => exact fun _ held => held
  | succ steps ih =>
    intro queue found waiting held
    cases queue with
    | nil => exact held
    | cons first queue =>
      have fresh (callee : FunctionId) (listed : callee ∈ view.freshCallees found first) :
          kept callee :=
        called first callee (waiting first List.mem_cons_self) (mem_freshCallees.mp listed).1
      refine ih (fun id listed => ?_) (fun id listed => ?_)
      · rcases List.mem_append.mp listed with older | new
        · exact waiting id (List.mem_cons_of_mem _ older)
        · exact fresh id new
      · rcases OrderedSet.mem_keys_addAll.mp listed with older | new
        · exact held id older
        · exact fresh id new

/-! ## Least closed sets -/

/-- A set of functions that holds the roots of a view and, with each of its members, the
existing functions that it calls. -/
structure ClosedUnderCalls (view : View) (kept : FunctionId → Prop) : Prop where
  /-- The roots are in the set. -/
  root : ∀ id function, view.function? id = some function → function.isRoot = true → kept id
  /-- The existing callees of a member are in the set. -/
  call : ∀ id callee, kept id → callee ∈ view.existingCallees id → kept callee

/-- All entries of a view lie below its slots, and its functions below its capacity. -/
structure Sized (view : View) : Prop where
  /-- Functions lie below the slots that are searched for roots. -/
  functions : FindsBelow view.function? view.functionSlots
  /-- Globals lie below the slots that are searched for exported ones. -/
  globals : ∀ id global, view.global? id = some global → id.slot < view.globalSlots
  /-- Functions lie below the capacity. -/
  capacity : FindsBelow view.function? view.capacity

/-- The roots of a view are its root functions. -/
theorem mem_roots (sized : view.Sized) {id : FunctionId} :
    id ∈ view.roots ↔ ∃ function, view.function? id = some function ∧ function.isRoot = true := by
  unfold roots
  simp only [List.mem_filter, List.mem_map, List.mem_range, Option.any_eq_true]
  constructor
  · exact fun listed => listed.2
  · rintro ⟨function, found, isRoot⟩
    exact ⟨⟨id.slot, sized.functions id function found, rfl⟩, function, found, isRoot⟩

/-- The search starts with the roots. -/
theorem searched_roots (sized : view.Sized) :
    view.Searched [] view.roots (OrderedSet.ofList view.roots) := by
  constructor
  · have slots : (List.range view.functionSlots).Nodup := List.nodup_range
    exact (slots.map fun one other same => Id.mk.inj same).filter _
  · exact fun id => OrderedSet.mem_keys_ofList
  · intro id listed
    obtain ⟨function, found, _⟩ := (mem_roots sized).mp listed
    simp [found]
  · exact fun id listed => absurd listed List.not_mem_nil

/-- The search finds the least set of functions that is closed under calls. -/
theorem mem_reachableFunctions (sized : view.Sized) {id : FunctionId} :
    id ∈ view.reachableFunctions.keys ↔ ∀ kept, view.ClosedUnderCalls kept → kept id := by
  constructor
  · intro found kept closed
    have start (root : FunctionId) (listed : root ∈ view.roots) : kept root := by
      obtain ⟨function, there, isRoot⟩ := (mem_roots sized).mp listed
      exact closed.root root function there isRoot
    exact kept_of_mem_close closed.call view.capacity start
      (fun root listed => start root (OrderedSet.mem_keys_ofList.mp listed)) id found
  · intro least
    obtain ⟨all, finished, kept⟩ := (searched_roots sized).close sized.capacity view.capacity
      (by simp)
    refine least (· ∈ view.reachableFunctions.keys) ⟨fun root function found isRoot => ?_,
      fun caller callee listed called => ?_⟩
    · have isListed := (mem_roots sized).mpr ⟨function, found, isRoot⟩
      exact kept root (OrderedSet.mem_keys_ofList.mpr isListed)
    · have followed : caller ∈ all := by simpa using (finished.members caller).mp listed
      exact finished.closed caller followed callee called

/-- The reachable globals are the exported ones and those that a reachable function
mentions. -/
theorem mem_reachable_globals (sized : view.Sized) {id : GlobalId} :
    id ∈ view.reachable.globals.keys ↔
      (∃ global, view.global? id = some global ∧ global.exported = true) ∨
        ∃ caller ∈ view.reachableFunctions.keys, ∃ function, view.function? caller = some function ∧
          id ∈ function.referencedGlobals := by
  unfold reachable
  simp only [OrderedSet.mem_keys_ofList, List.mem_append, List.mem_flatMap]
  refine or_congr ?_ (exists_congr fun caller => and_congr_right fun _ => ?_)
  · unfold exportedGlobals
    simp only [List.mem_filter, List.mem_map, List.mem_range, Option.any_eq_true]
    constructor
    · exact fun listed => listed.2
    · rintro ⟨global, found, isExported⟩
      exact ⟨⟨id.slot, sized.globals id global found, rfl⟩, global, found, isExported⟩
  · cases view.function? caller <;> simp

/-- Views that find the same entries have the same reachable part. -/
theorem reachable_congr (sized : view.Sized) (sizedOther : other.Sized)
    (functions : other.function? = view.function?) (globals : other.global? = view.global?) :
    other.reachable = view.reachable := by
  have closed (kept : FunctionId → Prop) :
      other.ClosedUnderCalls kept ↔ view.ClosedUnderCalls kept := by
    have callees : other.existingCallees = view.existingCallees := by
      funext id
      unfold existingCallees
      rw [functions]
    constructor <;> rintro ⟨root, call⟩ <;> refine ⟨?_, ?_⟩
    · rwa [functions] at root
    · rwa [callees] at call
    · rwa [functions]
    · rwa [callees]
  have found : other.reachableFunctions = view.reachableFunctions := by
    refine OrderedSet.ext_keys fun id => ?_
    rw [mem_reachableFunctions sized, mem_reachableFunctions sizedOther]
    simp only [closed]
  have mentioned : other.reachable.globals = view.reachable.globals := by
    refine OrderedSet.ext_keys fun id => ?_
    rw [mem_reachable_globals sized, mem_reachable_globals sizedOther, found, functions, globals]
  have parts (one : View) : one.reachable = ⟨one.reachableFunctions, one.reachable.globals⟩ := rfl
  rw [parts other, parts view, found, mentioned]

end View

/-! ## Programs -/

namespace Program

variable {program : Program}

/-- Globals that outside code can get to: the existing exported ones, and those that a
function mentions which outside code can get to. -/
inductive ReachesGlobal (program : Program) : GlobalId → Prop where
  /-- An exported global can be accessed. -/
  | exported {id : GlobalId} {global : Global} (found : program.global? id = some global)
      (isExported : global.exported = true) : ReachesGlobal program id
  /-- A global can be accessed through a function that mentions it. -/
  | mention {caller : FunctionId} {id : GlobalId} {function : Function}
      (reached : program.Reaches caller) (found : program.function? caller = some function)
      (mentioned : id ∈ function.referencedGlobals) : ReachesGlobal program id

/-- The entries of a program lie below its slots. -/
theorem view_sized (program : Program) : program.view.Sized :=
  ⟨program.findsBelow, fun _ _ found => Arena.slot_lt_of_get? found, program.findsBelow⟩

/-- The search finds the functions that outside code can get to. -/
theorem mem_reachable_functions {id : FunctionId} :
    id ∈ program.reachable.functions.keys ↔ program.Reaches id := by
  refine (View.mem_reachableFunctions program.view_sized).trans
    ⟨fun all => ?_, fun reached kept closed => ?_⟩
  · refine all program.Reaches ⟨fun root function found isRoot => .root found isRoot,
      fun caller callee reached called => ?_⟩
    obtain ⟨⟨function, found, called⟩, existing⟩ := View.mem_existingCallees.mp called
    obtain ⟨target, there⟩ := Option.isSome_iff_exists.mp existing
    exact .call reached found called there
  · induction reached with
    | root found isRoot => exact closed.root _ _ found isRoot
    | call _ found called existing ih =>
      exact closed.call _ _ ih (View.mem_existingCallees.mpr
        ⟨⟨_, found, called⟩, Option.isSome_iff_exists.mpr ⟨_, existing⟩⟩)

/-- The search finds the globals that outside code can get to. -/
theorem mem_reachable_globals {id : GlobalId} :
    id ∈ program.reachable.globals.keys ↔ program.ReachesGlobal id := by
  refine (View.mem_reachable_globals program.view_sized).trans ⟨?_, fun reached => ?_⟩
  · rintro (⟨global, found, isExported⟩ | ⟨caller, listed, function, found, mentioned⟩)
    · exact .exported found isExported
    · exact .mention (mem_reachable_functions.mp listed) found mentioned
  · cases reached with
    | exported found isExported => exact .inl ⟨_, found, isExported⟩
    | mention reached found mentioned =>
      exact .inr ⟨_, mem_reachable_functions.mpr reached, _, found, mentioned⟩

/-! ## Places of calls and accesses -/

/-- Functions that are used: those named as the entry point and exported ones, and those
that are called somewhere in a function that is used. -/
inductive Used (program : Program) : FunctionId → Prop where
  /-- The entry point is used. -/
  | main {id : FunctionId} {function : Function} (found : program.function? id = some function)
      (isMain : function.name = entryPoint) : Used program id
  /-- An exported function is used. -/
  | exported {id : FunctionId} {function : Function} (found : program.function? id = some function)
      (isExported : function.exported = true) : Used program id
  /-- A callee of a function that is used is used if it exists. -/
  | call {caller callee : FunctionId} {function target : Function} {args : List Expr}
      (used : Used program caller) (found : program.function? caller = some function)
      (place : Block.Contains function.body (.call callee args))
      (existing : program.function? callee = some target) : Used program callee

/-- Globals that are used: exported ones, and those that are read or written somewhere in a
function that is used. -/
inductive UsedGlobal (program : Program) : GlobalId → Prop where
  /-- An exported global is used. -/
  | exported {id : GlobalId} {global : Global} (found : program.global? id = some global)
      (isExported : global.exported = true) : UsedGlobal program id
  /-- A global whose value is read is used. -/
  | read {caller : FunctionId} {id : GlobalId} {function : Function} (used : program.Used caller)
      (found : program.function? caller = some function)
      (place : Block.Contains function.body (.global id)) : UsedGlobal program id
  /-- A global from which an element is loaded is used. -/
  | load {caller : FunctionId} {id : GlobalId} {index : Expr} {function : Function}
      (used : program.Used caller) (found : program.function? caller = some function)
      (place : Block.Contains function.body (.load id index)) : UsedGlobal program id
  /-- A global that is written, as a whole or in one element, is used. -/
  | write {caller : FunctionId} {id : GlobalId} {s : Stmt} {function : Function}
      (used : program.Used caller) (found : program.function? caller = some function)
      (place : Block.Holds function.body s) (target : s.target? = some id) : UsedGlobal program id

/-- Outside code can get to the functions that are used. -/
theorem reaches_iff_used {id : FunctionId} : program.Reaches id ↔ program.Used id := by
  constructor
  · intro reached
    induction reached with
    | root found isRoot =>
      rcases Bool.or_eq_true_iff.mp isRoot with isExported | isMain
      · exact .exported found isExported
      · exact .main found (beq_iff_eq.mp isMain)
    | call _ found called existing ih =>
      obtain ⟨args, listed⟩ := Block.mem_callees.mp called
      exact .call ih found (Block.mem_nodes_iff.mp listed) existing
  · intro used
    induction used with
    | main found isMain =>
      exact .root found (Bool.or_eq_true_iff.mpr (.inr (beq_iff_eq.mpr isMain)))
    | exported found isExported => exact .root found (Bool.or_eq_true_iff.mpr (.inl isExported))
    | call _ found place existing ih =>
      exact .call ih found (Block.mem_callees.mpr ⟨_, Block.mem_nodes_iff.mpr place⟩) existing

/-- Outside code can get to the globals that are used. -/
theorem reachesGlobal_iff_used {id : GlobalId} :
    program.ReachesGlobal id ↔ program.UsedGlobal id := by
  have mentions (function : Function) : id ∈ function.referencedGlobals ↔
      id ∈ Block.globals function.body := List.mem_eraseDups
  constructor
  · intro reached
    cases reached with
    | exported found isExported => exact .exported found isExported
    | mention reached found mentioned =>
      have used := reaches_iff_used.mp reached
      rcases Block.mem_globals_iff.mp ((mentions _).mp mentioned) with
        ⟨s, place, target⟩ | read | ⟨index, loaded⟩
      · exact .write used found place target
      · exact .read used found read
      · exact .load used found loaded
  · intro used
    have mention {caller : FunctionId} {function : Function} (used : program.Used caller)
        (found : program.function? caller = some function)
        (listed : id ∈ Block.globals function.body) : program.ReachesGlobal id :=
      .mention (reaches_iff_used.mpr used) found ((mentions function).mpr listed)
    cases used with
    | exported found isExported => exact .exported found isExported
    | read used found place =>
      exact mention used found (Block.mem_globals_iff.mpr (.inr (.inl place)))
    | load used found place =>
      exact mention used found (Block.mem_globals_iff.mpr (.inr (.inr ⟨_, place⟩)))
    | write used found place target =>
      exact mention used found (Block.mem_globals_iff.mpr (.inl ⟨_, place, target⟩))

end Program

end Timebound
