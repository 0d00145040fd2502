import Mathlib.Computability.Language
import Mathlib.Logic.Relation
import Mathlib.Order.CompletePartialOrder
import Timebound.Proofs.CallExpansion
import Timebound.Proofs.CyclePath

/-!
# Actions of complete runs

What a run of a function does that others can see: it writes globals and sends values.
Which arm of a branch it takes and how often the condition of a loop holds is open, calls
run the callee, and a return ends its own activation. The sequences of actions of all
complete runs form a language (`View.actions`).

A function whose calls never lead back to an active one needs no more nested calls than
there are functions, so the language is found at a fixed depth of calls
(`View.actions_of_acyclic`).
-/

namespace Timebound

/-- What a run does that others can see. Values are left out. -/
inductive Action where
  /-- A write of a scalar global. -/
  | write (id : GlobalId)
  /-- A write of an element. -/
  | store (id : GlobalId)
  /-- A value sent to a channel. -/
  | emit (channel : Nat)
  deriving DecidableEq

/-! ## Statements -/

/-- The sequences of actions of the runs of a statement: of those that go on after it,
and of those that return from the function. -/
@[ext] structure Conduct where
  /-- Actions of runs that go on. -/
  onward : Language Action
  /-- Actions of runs that return. -/
  returned : Language Action

namespace Conduct

/-- Do these actions and go on. -/
def act (actions : Language Action) : Conduct := ⟨actions, 0⟩

/-- Go on with something else, unless there was a return. -/
def andThen (first second : Conduct) : Conduct :=
  ⟨first.onward * second.onward, first.returned + first.onward * second.returned⟩

/-- Do one or the other. -/
def either (one other : Conduct) : Conduct :=
  ⟨one.onward + other.onward, one.returned + other.returned⟩

/-- The actions of all runs. -/
def all (conduct : Conduct) : Language Action := conduct.onward + conduct.returned

/-- Iterations of a loop, at most the given number; `spent` says what happens when none is
left. The test comes before each of them, and may end the loop if there is a condition. -/
def turns (test : Language Action) (conditional : Bool) (body spent : Conduct) : Nat → Conduct
  | 0 => spent
  | left + 1 => (act test).andThen
      ((act (if conditional then 1 else 0)).either
        (body.andThen (turns test conditional body spent left)))

@[simp] theorem onward_act (actions : Language Action) : (act actions).onward = actions := rfl

@[simp] theorem returned_act (actions : Language Action) : (act actions).returned = 0 := rfl

@[simp] theorem all_act (actions : Language Action) : (act actions).all = actions := add_zero _

/-- All runs of two statements in a row. -/
theorem all_andThen (first second : Conduct) :
    (first.andThen second).all = first.returned + first.onward * second.all := by
  unfold all andThen
  rw [mul_add, add_left_comm]

@[simp] theorem all_either (one other : Conduct) : (one.either other).all = one.all + other.all :=
  add_add_add_comm _ _ _ _

/-- Conduct none of which returns are actions to go on from. -/
theorem eq_act {conduct : Conduct} (stays : conduct.returned = 0) : conduct = act conduct.all := by
  refine Conduct.ext ?_ stays
  rw [onward_act, all, stays, add_zero]

/-- All runs of iterations. -/
theorem all_turns_succ (test : Language Action) (conditional : Bool) (body spent : Conduct)
    (left : Nat) : (turns test conditional body spent (left + 1)).all =
      test * ((if conditional then 1 else 0) +
        (body.returned + body.onward * (turns test conditional body spent left).all)) := by
  rw [turns, all_andThen, all_either, all_act, all_andThen, returned_act, onward_act, zero_add]

/-- Iterations that do not return lead to no return. -/
theorem returned_turns {body spent : Conduct} (stays : body.returned = 0)
    (spentStays : spent.returned = 0) (test : Language Action) (conditional : Bool) (trips : Nat) :
    (turns test conditional body spent trips).returned = 0 := by
  induction trips with
  | zero => exact spentStays
  | succ left ih => simp [turns, andThen, either, ih, stays]

end Conduct

/-- The runs of a loop with this bound. One without a limit must end by its condition. -/
def TripBound.conduct (bound : TripBound) (test : Language Action) (conditional : Bool)
    (body : Conduct) : Conduct :=
  match bound.limit? with
  | some trips => Conduct.turns test conditional body (.act 1) trips
  | none => ⟨⨆ patience, (Conduct.turns test conditional body (.act 0) patience).onward,
      ⨆ patience, (Conduct.turns test conditional body (.act 0) patience).returned⟩

/-- A loop whose iterations do not return does not return. -/
theorem TripBound.returned_conduct (bound : TripBound) {body : Conduct} (stays : body.returned = 0)
    (test : Language Action) (conditional : Bool) :
    (bound.conduct test conditional body).returned = 0 := by
  unfold TripBound.conduct
  split
  · exact Conduct.returned_turns stays rfl test conditional _
  · have each (patience : Nat) :
        (Conduct.turns test conditional body (.act 0) patience).returned = 0 :=
      Conduct.returned_turns stays rfl test conditional patience
    simp only [each]
    exact iSup_const

/-- The actions of calls in a row. -/
def callActions (calls : FunctionId → Language Action) : List FunctionId → Language Action
  | [] => 1
  | id :: rest => calls id * callActions calls rest

/-- The actions of evaluating an expression are those of its calls. -/
def Expr.actions (calls : FunctionId → Language Action) (e : Expr) : Language Action :=
  callActions calls e.pathCalls

/-- The actions of evaluating arguments are those of their calls. -/
def Args.actions (calls : FunctionId → Language Action) (args : List Expr) : Language Action :=
  callActions calls (Args.pathCalls args)

mutual

/-- The runs of a statement, given the actions of a call of each function. -/
def Stmt.conduct (calls : FunctionId → Language Action) : Stmt → Conduct
  | .bind _ _ value | .assign _ value | .eval value => .act (value.actions calls)
  | .setGlobal id value => .act (value.actions calls * {[.write id]})
  | .store id index value =>
    .act (index.actions calls * value.actions calls * {[.store id]})
  | .emit channel value => .act (value.actions calls * {[.emit channel]})
  | .branch cond thenBody elseBody _ => (Conduct.act (cond.actions calls)).andThen
    ((Block.conduct calls thenBody).either (Block.conduct calls elseBody))
  | .loop _ bound condition body =>
    bound.conduct (Args.actions calls condition.toList) condition.isSome (Block.conduct calls body)
  | .ret value => ⟨0, Args.actions calls value.toList⟩

/-- The runs of a block. -/
def Block.conduct (calls : FunctionId → Language Action) : List Stmt → Conduct
  | [] => .act 1
  | s :: rest => (s.conduct calls).andThen (Block.conduct calls rest)

end

namespace View

/-- The actions of the complete runs of a function with no more than `depth` nested
activations. -/
def actionsWithin (view : View) : Nat → FunctionId → Language Action
  | 0, _ => 0
  | depth + 1, id => match view.function? id with
    | some function => (Block.conduct (view.actionsWithin depth) function.body).all
    | none => 0

/-- The actions of the complete runs of a function. -/
def actions (view : View) (id : FunctionId) : Language Action :=
  ⨆ depth, view.actionsWithin depth id

variable {view : View} {id : FunctionId} {function : Function} {word : List Action}

/-- What a run of the body does, a run of the function does. -/
theorem mem_actions (found : view.function? id = some function) (depth : Nat)
    (runs : word ∈ (Block.conduct (view.actionsWithin depth) function.body).all) :
    word ∈ view.actions id := by
  refine Language.mem_iSup.mpr ⟨depth + 1, ?_⟩
  rwa [actionsWithin, found]

/-- What no run of the body does, no run of the function does. -/
theorem notMem_actions (found : view.function? id = some function)
    (never : ∀ depth, word ∉ (Block.conduct (view.actionsWithin depth) function.body).all) :
    word ∉ view.actions id := by
  intro done
  obtain ⟨depth, runs⟩ := Language.mem_iSup.mp done
  cases depth with
  | zero => exact Language.notMem_zero word runs
  | succ depth =>
    rw [actionsWithin, found] at runs
    exact never depth runs

end View

/-! ## More runs of callees -/

namespace Conduct

/-- All runs of one conduct are runs of another one. -/
def Within (one other : Conduct) : Prop :=
  one.onward ≤ other.onward ∧ one.returned ≤ other.returned

variable {one other first second : Conduct}

/-- A conduct is within itself. -/
theorem Within.refl (conduct : Conduct) : conduct.Within conduct := ⟨le_rfl, le_rfl⟩

/-- A conduct that is within another one both ways is the same. -/
theorem Within.antisymm (there : one.Within other) (back : other.Within one) : one = other :=
  Conduct.ext (le_antisymm there.1 back.1) (le_antisymm there.2 back.2)

/-- More actions to go on from. -/
theorem within_act {actions more : Language Action} (fewer : actions ≤ more) :
    (act actions).Within (act more) := ⟨fewer, le_rfl⟩

/-- More runs of both of two statements in a row. -/
theorem Within.andThen (start : one.Within other) (next : first.Within second) :
    (one.andThen first).Within (other.andThen second) :=
  ⟨mul_le_mul' start.1 next.1, sup_le_sup start.2 (mul_le_mul' start.1 next.2)⟩

/-- More runs of both of two arms. -/
theorem Within.either (start : one.Within other) (next : first.Within second) :
    (one.either first).Within (other.either second) :=
  ⟨sup_le_sup start.1 next.1, sup_le_sup start.2 next.2⟩

/-- More runs in all. -/
theorem Within.all (within : one.Within other) : one.all ≤ other.all :=
  sup_le_sup within.1 within.2

/-- More runs of the iterations of a loop. -/
theorem Within.turns {test more : Language Action} (tests : test ≤ more) (conditional : Bool)
    (body : one.Within other) (spent : Conduct) (trips : Nat) :
    (turns test conditional one spent trips).Within (turns more conditional other spent trips) := by
  induction trips with
  | zero => exact .refl spent
  | succ left ih => exact (within_act tests).andThen ((Within.refl _).either (body.andThen ih))

/-- More runs of a loop. -/
theorem Within.loop {test more : Language Action} (tests : test ≤ more) (conditional : Bool)
    (body : one.Within other) (bound : TripBound) :
    (bound.conduct test conditional one).Within (bound.conduct more conditional other) := by
  unfold TripBound.conduct
  split
  · exact body.turns tests conditional _ _
  · exact ⟨iSup_mono fun patience => (body.turns tests conditional _ patience).1,
      iSup_mono fun patience => (body.turns tests conditional _ patience).2⟩

end Conduct

section

variable {calls other : FunctionId → Language Action}

/-- More runs of callees give more runs of calls in a row. -/
theorem callActions_mono {ids : List FunctionId} (more : ∀ id ∈ ids, calls id ≤ other id) :
    callActions calls ids ≤ callActions other ids := by
  induction ids with
  | nil => exact le_rfl
  | cons id rest ih =>
    exact mul_le_mul' (more id List.mem_cons_self) (ih fun id listed =>
      more id (List.mem_cons_of_mem _ listed))

/-- More runs of callees give more runs of an expression. -/
theorem Expr.actions_mono {e : Expr}
    (more : ∀ id args, .call id args ∈ e.nodes → calls id ≤ other id) :
    e.actions calls ≤ e.actions other :=
  callActions_mono fun _ made =>
    let ⟨args, node⟩ := Expr.mem_nodes_of_pathCalls e made
    more _ args node

/-- More runs of callees give more runs of arguments. -/
theorem Args.actions_mono {passed : List Expr}
    (more : ∀ id args, .call id args ∈ Args.nodes passed → calls id ≤ other id) :
    Args.actions calls passed ≤ Args.actions other passed :=
  callActions_mono fun _ made =>
    let ⟨args, node⟩ := Args.mem_nodes_of_pathCalls passed made
    more _ args node

mutual

/-- More runs of callees give more runs of a statement. -/
theorem Stmt.conduct_mono : ∀ s : Stmt,
    (∀ id args, .call id args ∈ s.nodes → calls id ≤ other id) →
      (s.conduct calls).Within (s.conduct other)
  | .bind .., more | .assign .., more | .eval _, more =>
    Conduct.within_act (Expr.actions_mono fun id args called =>
      more id args (by simp [Stmt.nodes, called]))
  | .setGlobal _ _, more | .emit _ _, more =>
    Conduct.within_act (mul_le_mul' (Expr.actions_mono fun id args called =>
      more id args (by simp [Stmt.nodes, called])) le_rfl)
  | .store _ index value, more => by
    have first : index.actions calls ≤ index.actions other :=
      Expr.actions_mono fun id args called => more id args (by simp [Stmt.nodes, called])
    have second : value.actions calls ≤ value.actions other :=
      Expr.actions_mono fun id args called => more id args (by simp [Stmt.nodes, called])
    exact Conduct.within_act (mul_le_mul' (mul_le_mul' first second) le_rfl)
  | .branch cond thenBody elseBody _, more => by
    have decided : cond.actions calls ≤ cond.actions other :=
      Expr.actions_mono fun id args called => more id args (by simp [Stmt.nodes, called])
    have inThen := Block.conduct_mono thenBody fun id args called =>
      more id args (by simp [Stmt.nodes, called])
    have inElse := Block.conduct_mono elseBody fun id args called =>
      more id args (by simp [Stmt.nodes, called])
    exact (Conduct.within_act decided).andThen (inThen.either inElse)
  | .loop _ bound condition body, more => by
    have tested : Args.actions calls condition.toList ≤ Args.actions other condition.toList :=
      Args.actions_mono fun id args called =>
        more id args (by rw [Args.nodes_toList] at called; simp [Stmt.nodes, called])
    have inner := Block.conduct_mono body fun id args called =>
      more id args (by simp [Stmt.nodes, called])
    exact inner.loop tested condition.isSome bound
  | .ret value, more => ⟨le_rfl, Args.actions_mono fun id args called =>
      more id args (by rw [Args.nodes_toList] at called; simp [Stmt.nodes, called])⟩

/-- More runs of callees give more runs of a block. -/
theorem Block.conduct_mono : ∀ block : Block,
    (∀ id args, .call id args ∈ Block.nodes block → calls id ≤ other id) →
      (Block.conduct calls block).Within (Block.conduct other block)
  | [], _ => .refl _
  | s :: rest, more => by
    have first := Stmt.conduct_mono s fun id args called =>
      more id args (by simp [Block.nodes, called])
    have others := Block.conduct_mono rest fun id args called =>
      more id args (by simp [Block.nodes, called])
    exact first.andThen others

end

/-- The runs of a block depend on the functions it calls only. -/
theorem Block.conduct_congr {block : Block}
    (same : ∀ id ∈ Block.callees block, calls id = other id) :
    Block.conduct calls block = Block.conduct other block := by
  have agree (id : FunctionId) (args : List Expr) (called : .call id args ∈ Block.nodes block) :
      calls id = other id := same id (Block.mem_callees.mpr ⟨args, called⟩)
  exact (Block.conduct_mono block fun id args called => (agree id args called).le).antisymm
    (Block.conduct_mono block fun id args called => (agree id args called).ge)

end

/-! ## Views without recursion -/

namespace View

variable {view : View}

/-- No function can be called while it is active. -/
def Acyclic (view : View) : Prop := ∀ id, ¬Relation.TransGen view.Calls id id

/-- There are no more functions than the capacity says. -/
def Bounded (view : View) : Prop :=
  ∃ present : Finset FunctionId, present.card ≤ view.capacity ∧
    ∀ id function, view.function? id = some function → id ∈ present

/-- A deeper nesting of activations adds runs. -/
theorem actionsWithin_succ (view : View) (depth : Nat) :
    ∀ id, view.actionsWithin depth id ≤ view.actionsWithin (depth + 1) id := by
  induction depth with
  | zero => exact fun id => bot_le
  | succ depth ih =>
    intro id
    rw [actionsWithin, actionsWithin]
    split
    · exact (Block.conduct_mono _ fun callee _ _ => ih callee).all
    · exact le_rfl

/-- A callee of a function that all active ones lead to is itself one that they lead to,
and so does its caller. -/
theorem leads_callee {active : List FunctionId} {id callee : FunctionId} {function : Function}
    (leads : ∀ other ∈ active, Relation.TransGen view.Calls other id)
    (found : view.function? id = some function) (called : callee ∈ function.callees) :
    ∀ other ∈ id :: active, Relation.TransGen view.Calls other callee := by
  have step : view.Calls id callee := ⟨function, found, called⟩
  intro other listed
  rcases List.mem_cons.mp listed with rfl | older
  · exact .single step
  · exact (leads other older).tail step

/-- Without recursion, activations nest no deeper than there are idle functions. -/
theorem actionsWithin_of_le (acyclic : view.Acyclic) {present : Finset FunctionId}
    (all : ∀ id function, view.function? id = some function → id ∈ present) (depth : Nat) :
    ∀ (active : List FunctionId) (id : FunctionId),
      (∀ other ∈ active, Relation.TransGen view.Calls other id) →
      (present.filter (· ∉ active)).card ≤ depth → ∀ more,
        view.actionsWithin (depth + more) id = view.actionsWithin depth id := by
  have fewer {active : List FunctionId} {id : FunctionId} {function : Function}
      (leads : ∀ other ∈ active, Relation.TransGen view.Calls other id)
      (found : view.function? id = some function) :
      (present.filter (· ∉ id :: active)).card < (present.filter (· ∉ active)).card :=
    card_idle_cons_lt (fun id => id) (all id function found) fun listed =>
      acyclic id (leads id listed)
  induction depth with
  | zero =>
    intro active id leads room more
    have missing : view.function? id = none := by
      by_contra there
      obtain ⟨function, found⟩ := Option.ne_none_iff_exists'.mp there
      exact Nat.not_lt_zero _ ((fewer leads found).trans_le room)
    cases more with
    | zero => rfl
    | succ more => simp only [actionsWithin, missing]
  | succ depth ih =>
    intro active id leads room more
    rw [Nat.succ_add, actionsWithin, actionsWithin]
    cases found : view.function? id with
    | none => rfl
    | some function =>
      refine congrArg Conduct.all (Block.conduct_congr fun callee called => ?_)
      exact ih (id :: active) callee (leads_callee leads found called)
        (Nat.le_of_lt_succ ((fewer leads found).trans_le room)) more

/-- Without recursion, a function has no runs that nest more activations than there can be
functions. -/
theorem actions_of_acyclic (acyclic : view.Acyclic) (bounded : view.Bounded) {depth : Nat}
    (enough : view.capacity ≤ depth) (id : FunctionId) :
    view.actions id = view.actionsWithin depth id := by
  obtain ⟨present, few, all⟩ := bounded
  have room : (present.filter (· ∉ [])).card ≤ depth :=
    (Finset.card_filter_le _ _).trans (few.trans enough)
  have grows := monotone_nat_of_le_succ fun depth => view.actionsWithin_succ depth id
  refine le_antisymm (iSup_le fun deeper => ?_)
    (le_iSup (fun depth => view.actionsWithin depth id) depth)
  have settled := actionsWithin_of_le acyclic all depth [] id nofun room deeper
  exact (grows (Nat.le_add_left deeper depth)).trans settled.le

end View

end Timebound
