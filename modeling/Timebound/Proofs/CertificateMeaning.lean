import Timebound.Proofs.ActionRuns
import Timebound.Proofs.GuidedEffects

/-!
# What the certificate means

The certificate of the guided pass compares effect traces. A trace stands for a language
of actions, with a choice at every branch and a repetition at every loop. It is silent
about returns and about the conditions of loops. Where a body can be read off its trace in
spite of this (`Block.readable`), the language is that of the complete runs of the
function (`View.actions_effects?`). So two versions of a function with the same trace do
the same things (`Guided.certified_actions_eq`). Other bodies can be confused
(`Guided.Misjudged`).
-/

namespace Timebound

/-! ## Languages of traces -/

mutual

/-- The sequences of actions that an effect stands for. A trace does not tell which loops
have conditions; `tested` tells it for the loops of each bound. A call that is left has no
callee to run. -/
def Effect.actions (tested : TripBound → Bool) : Effect → Language Action
  | .reads _ => 1
  | .write id => {[.write id]}
  | .store id => {[.store id]}
  | .emit channel => {[.emit channel]}
  | .call _ => 0
  | .loop bound body =>
    (bound.conduct 1 (tested bound) (.act (Effects.actions tested body))).all
  | .branch whenTrue whenFalse =>
    Effects.actions tested whenTrue + Effects.actions tested whenFalse

/-- The sequences of actions that effects in a row stand for. -/
def Effects.actions (tested : TripBound → Bool) : List Effect → Language Action
  | [] => 1
  | effect :: rest => effect.actions tested * Effects.actions tested rest

end

/-- The sequences of actions that a trace stands for so far. -/
def Trace.actions (tested : TripBound → Bool) (trace : Trace) : Language Action :=
  Effects.actions tested trace.finish

section

variable (tested : TripBound → Bool)

/-- Effects in a row stand for their actions in a row. -/
theorem Effects.actions_append (first second : List Effect) :
    Effects.actions tested (first ++ second) =
      Effects.actions tested first * Effects.actions tested second := by
  induction first with
  | nil => rw [List.nil_append, Effects.actions, one_mul]
  | cons effect rest ih => rw [List.cons_append, Effects.actions, Effects.actions, ih, mul_assoc]

/-- One effect at the end. -/
theorem Effects.actions_concat (effects : List Effect) (last : Effect) :
    Effects.actions tested (effects ++ [last]) =
      Effects.actions tested effects * last.actions tested := by
  rw [Effects.actions_append, Effects.actions, Effects.actions, mul_one]

namespace Trace

/-- Reads stand for no action, so those that are pending do not matter. -/
theorem actions_eq (trace : Trace) :
    trace.actions tested = Effects.actions tested trace.events.reverse := by
  unfold Trace.actions finish flush
  split
  · rfl
  · rw [List.reverse_cons, Effects.actions_concat, Effect.actions, mul_one]

/-- Nothing has been done at the start. -/
@[simp] theorem actions_empty : ({} : Trace).actions tested = 1 := by
  rw [actions_eq]
  rfl

/-- A read is no action. -/
@[simp] theorem actions_read (trace : Trace) (seen : Read) :
    (trace.read seen).actions tested = trace.actions tested := by
  rw [actions_eq, actions_eq]
  rfl

/-- An effect adds its actions. -/
@[simp] theorem actions_push (trace : Trace) (effect : Effect) :
    (trace.push effect).actions tested = trace.actions tested * effect.actions tested := by
  have flushed : Effects.actions tested trace.flush.events.reverse = trace.actions tested := rfl
  rw [actions_eq, ← flushed, ← Effects.actions_concat, ← List.reverse_cons]
  rfl

end Trace

end

/-! ## Expressions -/

/-- A callee is replaced by effects that stand for its actions, or it has no runs. -/
def Opens (tested : TripBound → Bool) (opened : FunctionId → Option (Trace → Trace))
    (calls : FunctionId → Language Action) (id : FunctionId) : Prop :=
  match opened id with
  | some act => ∀ trace, (act trace).actions tested = trace.actions tested * calls id
  | none => calls id = 0

/-- Calls in a row have their actions in a row. -/
theorem callActions_append (calls : FunctionId → Language Action) (first second : List FunctionId) :
    callActions calls (first ++ second) = callActions calls first * callActions calls second := by
  induction first with
  | nil => rw [List.nil_append, callActions, one_mul]
  | cons id rest ih => rw [List.cons_append, callActions, callActions, ih, mul_assoc]

section Bodies

variable {tested : TripBound → Bool} {opened : FunctionId → Option (Trace → Trace)}
  {calls : FunctionId → Language Action}

mutual

/-- The effects of an expression stand for its actions. -/
theorem Expr.actions_effects : ∀ e : Expr, (∀ id ∈ e.pathCalls, Opens tested opened calls id) →
    ∀ trace, (e.effects opened trace).actions tested = trace.actions tested * e.actions calls
  | .lit _, _, trace | .var _, _, trace => (mul_one _).symm
  | .global id, _, trace => by
    rw [Expr.effects, Trace.actions_read]
    exact (mul_one _).symm
  | .load id index, opens, trace => by
    rw [Expr.effects, Trace.actions_read]
    exact Expr.actions_effects index opens trace
  | .unary _ _ operand, opens, trace => Expr.actions_effects operand opens trace
  | .binary _ _ left right, opens, trace => by
    rw [Expr.pathCalls, List.forall_mem_append] at opens
    rw [Expr.effects, Expr.actions_effects right opens.2, Expr.actions_effects left opens.1,
      mul_assoc]
    exact congrArg _ (callActions_append calls left.pathCalls right.pathCalls).symm
  | .call callee args, opens, trace => by
    rw [Expr.pathCalls, List.forall_mem_append] at opens
    have inner := Args.actions_effects args opens.1 trace
    have total : (Expr.call callee args).actions calls =
        Args.actions calls args * calls callee := by
      unfold Expr.actions
      rw [Expr.pathCalls, callActions_append, callActions, callActions, mul_one]
      rfl
    have replaced := opens.2 callee (List.mem_singleton_self callee)
    unfold Opens at replaced
    rw [total, ← mul_assoc, ← inner, Expr.effects]
    cases found : opened callee with
    | some act =>
      rw [found] at replaced
      exact replaced _
    | none =>
      rw [found] at replaced
      rw [replaced, Trace.actions_push, Effect.actions]

/-- The effects of arguments stand for their actions. -/
theorem Args.actions_effects : ∀ args : List Expr,
    (∀ id ∈ Args.pathCalls args, Opens tested opened calls id) → ∀ trace,
      (Args.effects opened args trace).actions tested =
        trace.actions tested * Args.actions calls args
  | [], _, trace => (mul_one _).symm
  | arg :: args, opens, trace => by
    rw [Args.pathCalls, List.forall_mem_append] at opens
    rw [Args.effects, Args.actions_effects args opens.2, Expr.actions_effects arg opens.1,
      mul_assoc]
    exact congrArg _ (callActions_append calls arg.pathCalls (Args.pathCalls args)).symm

end

/-- The effects of an expression stand for its actions when the functions it calls are
replaced by theirs. -/
theorem Expr.actions_effects_of_nodes (e : Expr)
    (opens : ∀ id args, .call id args ∈ e.nodes → Opens tested opened calls id) (trace : Trace) :
    (e.effects opened trace).actions tested = trace.actions tested * e.actions calls :=
  Expr.actions_effects e (fun _ made =>
    let ⟨args, node⟩ := Expr.mem_nodes_of_pathCalls e made
    opens _ args node) trace

/-- The effects of arguments stand for their actions when the functions they call are
replaced by theirs. -/
theorem Args.actions_effects_of_nodes (passed : List Expr)
    (opens : ∀ id args, .call id args ∈ Args.nodes passed → Opens tested opened calls id)
    (trace : Trace) : (Args.effects opened passed trace).actions tested =
      trace.actions tested * Args.actions calls passed :=
  Args.actions_effects passed (fun _ made =>
    let ⟨args, node⟩ := Args.mem_nodes_of_pathCalls passed made
    opens _ args node) trace

/-- An expression without calls adds no action. -/
theorem Expr.actions_effects_of_isEmpty {e : Expr} (idle : e.pathCalls.isEmpty = true)
    (trace : Trace) : (e.effects opened trace).actions tested = trace.actions tested := by
  have empty := List.isEmpty_iff.mp idle
  have added : (e.effects opened trace).actions tested =
      trace.actions tested * e.actions fun _ => 0 :=
    Expr.actions_effects e (by simp [empty]) trace
  rw [added, Expr.actions, empty, callActions, mul_one]

/-- Arguments without calls add no action. -/
theorem Args.actions_effects_of_isEmpty {args : List Expr}
    (idle : (Args.pathCalls args).isEmpty = true) (trace : Trace) :
    (Args.effects opened args trace).actions tested = trace.actions tested := by
  have empty := List.isEmpty_iff.mp idle
  have added : (Args.effects opened args trace).actions tested =
      trace.actions tested * Args.actions (fun _ => 0) args :=
    Args.actions_effects args (by simp [empty]) trace
  rw [added, Args.actions, empty, callActions, mul_one]

end Bodies

/-! ## Silent bodies -/

mutual

/-- Whether all runs of a statement end without an action. -/
def Stmt.silent : Stmt → Bool
  | .bind _ _ value | .assign _ value | .eval value => value.pathCalls.isEmpty
  | .setGlobal .. | .store .. | .emit .. => false
  | .branch cond thenBody elseBody _ =>
    cond.pathCalls.isEmpty && (Block.silent thenBody && Block.silent elseBody)
  | .loop _ bound condition body =>
    bound.limit?.isSome && ((Args.pathCalls condition.toList).isEmpty && Block.silent body)
  | .ret value => (Args.pathCalls value.toList).isEmpty

/-- Whether all runs of a block end without an action. -/
def Block.silent : List Stmt → Bool
  | [] => true
  | s :: rest => s.silent && Block.silent rest

end

/-- Calls of nothing have no actions. -/
theorem callActions_of_isEmpty (calls : FunctionId → Language Action) {ids : List FunctionId}
    (idle : ids.isEmpty = true) : callActions calls ids = 1 := by
  rw [List.isEmpty_iff.mp idle]
  rfl

/-- Iterations that do nothing do nothing together. -/
theorem Conduct.all_turns_one {body : Conduct} (idle : body.all = 1) (conditional : Bool)
    (trips : Nat) : (Conduct.turns 1 conditional body (.act 1) trips).all = 1 := by
  have once : body.returned + body.onward * 1 = 1 := by
    rw [mul_one, add_comm]
    exact idle
  induction trips with
  | zero => exact Conduct.all_act 1
  | succ left ih =>
    rw [Conduct.all_turns_succ, ih, once, one_mul]
    cases conditional with
    | false => exact zero_add 1
    | true => exact Language.add_self 1

/-- A loop with a limit whose iterations do nothing does nothing. -/
theorem TripBound.all_conduct_one {bound : TripBound} (limited : bound.limit?.isSome = true)
    {body : Conduct} (idle : body.all = 1) (conditional : Bool) :
    (bound.conduct 1 conditional body).all = 1 := by
  obtain ⟨trips, limit⟩ := Option.isSome_iff_exists.mp limited
  unfold TripBound.conduct
  rw [limit]
  exact Conduct.all_turns_one idle conditional trips

/-- Effects that are added again and again stand for their actions in a row. -/
theorem Trace.actions_iterate {tested : TripBound → Bool} {act : Trace → Trace}
    {body : Language Action}
    (once : ∀ trace, (act trace).actions tested = trace.actions tested * body) (trips : Nat)
    (trace : Trace) : (act^[trips] trace).actions tested =
      trace.actions tested * (Conduct.turns 1 false (.act body) (.act 1) trips).all := by
  induction trips generalizing trace with
  | zero =>
    rw [Conduct.turns, Conduct.all_act, mul_one]
    rfl
  | succ left ih =>
    rw [Function.iterate_succ_apply, ih, once, Conduct.all_turns_succ, mul_assoc]
    simp

mutual

/-- A silent statement has runs, and no actions. -/
theorem Stmt.all_conduct_of_silent (calls : FunctionId → Language Action) : ∀ s : Stmt,
    s.silent = true → (s.conduct calls).all = 1
  | .bind .., silent | .assign .., silent | .eval _, silent =>
    (Conduct.all_act _).trans (callActions_of_isEmpty calls silent)
  | .branch cond thenBody elseBody _, silent => by
    simp only [Stmt.silent, Bool.and_eq_true] at silent
    have inThen := Block.all_conduct_of_silent calls thenBody silent.2.1
    have inElse := Block.all_conduct_of_silent calls elseBody silent.2.2
    rw [Stmt.conduct, Conduct.all_andThen, Conduct.all_either, inThen, inElse, Language.add_self,
      Conduct.returned_act, Conduct.onward_act, zero_add, mul_one]
    exact callActions_of_isEmpty calls silent.1
  | .loop _ bound condition body, silent => by
    simp only [Stmt.silent, Bool.and_eq_true] at silent
    have inner := Block.all_conduct_of_silent calls body silent.2.2
    have untested : Args.actions calls condition.toList = 1 :=
      callActions_of_isEmpty calls silent.2.1
    rw [Stmt.conduct, untested]
    exact TripBound.all_conduct_one silent.1 inner condition.isSome
  | .ret value, silent => (zero_add _).trans (callActions_of_isEmpty calls silent)

/-- A silent block has runs, and no actions. -/
theorem Block.all_conduct_of_silent (calls : FunctionId → Language Action) : ∀ block : Block,
    Block.silent block = true → (Block.conduct calls block).all = 1
  | [], _ => Conduct.all_act 1
  | s :: rest, silent => by
    simp only [Block.silent, Bool.and_eq_true] at silent
    have first := Stmt.all_conduct_of_silent calls s silent.1
    have others := Block.all_conduct_of_silent calls rest silent.2
    rw [Block.conduct, Conduct.all_andThen, others, mul_one, add_comm]
    exact first

end

section Silence

variable (tested : TripBound → Bool) (opened : FunctionId → Option (Trace → Trace))

mutual

/-- The effects of a silent statement stand for no action. -/
theorem Stmt.actions_effects_of_silent : ∀ s : Stmt, s.silent = true → ∀ trace,
    (s.effects opened trace).actions tested = trace.actions tested
  | .bind .., silent, trace | .assign .., silent, trace | .eval _, silent, trace =>
    Expr.actions_effects_of_isEmpty silent trace
  | .branch cond thenBody elseBody _, silent, trace => by
    simp only [Stmt.silent, Bool.and_eq_true] at silent
    have inThen : Effects.actions tested (Block.effects opened thenBody {}).finish = 1 :=
      (Block.actions_effects_of_silent thenBody silent.2.1 {}).trans (Trace.actions_empty tested)
    have inElse : Effects.actions tested (Block.effects opened elseBody {}).finish = 1 :=
      (Block.actions_effects_of_silent elseBody silent.2.2 {}).trans (Trace.actions_empty tested)
    have decided : cond.guard.pathCalls.isEmpty = true := by
      rw [Expr.pathCalls_guard]
      exact silent.1
    simp only [Stmt.effects]
    rw [Trace.actions_push, Expr.actions_effects_of_isEmpty decided]
    split <;> rw [Effect.actions, inThen, inElse, Language.add_self, mul_one]
  | .loop _ bound condition body, silent, trace => by
    simp only [Stmt.silent, Bool.and_eq_true] at silent
    have inner := Block.actions_effects_of_silent body silent.2.2
    simp only [Stmt.effects]
    split
    · have once (trace : Trace) : (Block.effects opened body trace).actions tested =
          trace.actions tested * 1 := by rw [inner, mul_one]
      rw [Trace.actions_iterate once, Conduct.all_turns_one (Conduct.all_act 1), mul_one]
    · have once : Effects.actions tested (Block.effects opened body
          (Args.effects opened condition.toList {})).finish = 1 := by
        refine (inner _).trans ?_
        rw [Args.actions_effects_of_isEmpty silent.2.1, Trace.actions_empty]
      rw [Trace.actions_push, Effect.actions, once,
        TripBound.all_conduct_one silent.1 (Conduct.all_act 1), mul_one]
  | .ret value, silent, trace => Args.actions_effects_of_isEmpty silent trace

/-- The effects of a silent block stand for no action. -/
theorem Block.actions_effects_of_silent : ∀ block : Block, Block.silent block = true → ∀ trace,
    (Block.effects opened block trace).actions tested = trace.actions tested
  | [], _, _ => rfl
  | s :: rest, silent, trace => by
    simp only [Block.silent, Bool.and_eq_true] at silent
    rw [Block.effects, Block.actions_effects_of_silent rest silent.2,
      Stmt.actions_effects_of_silent s silent.1]

end

end Silence

/-! ## Readable bodies -/

mutual

/-- Whether the runs of a statement can be read off its effects. A loop that is not silent
has no return in it and, if it is not written out, a condition without calls just when
loops of this bound are known to have one. -/
def Stmt.readable (tested : TripBound → Bool) : Stmt → Bool
  | .branch _ thenBody elseBody _ =>
    Block.readable tested thenBody && Block.readable tested elseBody
  | .loop counter bound condition body =>
    (Stmt.loop counter bound condition body).silent ||
      !Block.returns body && Block.readable tested body &&
        ((bound.writtenTrips? condition).isSome ||
          (Args.pathCalls condition.toList).isEmpty && condition.isSome == tested bound)
  | .bind .. | .assign .. | .setGlobal .. | .store .. | .emit .. | .eval _ | .ret _ => true

/-- Whether the runs of a block can be read off its effects: only silent statements stand
after one that can return. -/
def Block.readable (tested : TripBound → Bool) : List Stmt → Bool
  | [] => true
  | s :: rest =>
    s.readable tested && (!s.returns || Block.silent rest) && Block.readable tested rest

end

mutual

/-- A statement without returns does not return. -/
theorem Stmt.returned_conduct (calls : FunctionId → Language Action) : ∀ s : Stmt,
    s.returns = false → (s.conduct calls).returned = 0
  | .bind .., _ | .assign .., _ | .eval _, _ | .setGlobal .., _ | .store .., _ | .emit .., _ => rfl
  | .branch cond thenBody elseBody _, stays => by
    simp only [Stmt.returns, Bool.or_eq_false_iff] at stays
    have inThen := Block.returned_conduct calls thenBody stays.1
    have inElse := Block.returned_conduct calls elseBody stays.2
    simp [Stmt.conduct, Conduct.andThen, Conduct.either, inThen, inElse]
  | .loop _ bound condition body, stays =>
    bound.returned_conduct (Block.returned_conduct calls body stays) _ _

/-- A block without returns does not return. -/
theorem Block.returned_conduct (calls : FunctionId → Language Action) : ∀ block : Block,
    Block.returns block = false → (Block.conduct calls block).returned = 0
  | [], _ => rfl
  | s :: rest, stays => by
    simp only [Block.returns, Bool.or_eq_false_iff] at stays
    have first := Stmt.returned_conduct calls s stays.1
    have others := Block.returned_conduct calls rest stays.2
    simp [Block.conduct, Conduct.andThen, first, others]

end

section Bodies

variable {tested : TripBound → Bool} {opened : FunctionId → Option (Trace → Trace)}
  {calls : FunctionId → Language Action}

mutual

/-- The effects of a readable statement stand for its runs. -/
theorem Stmt.actions_effects : ∀ s : Stmt, s.readable tested = true →
    (∀ id args, .call id args ∈ s.nodes → Opens tested opened calls id) → ∀ trace,
      (s.effects opened trace).actions tested = trace.actions tested * (s.conduct calls).all
  | .bind _ _ value, _, opens, trace | .assign _ value, _, opens, trace
  | .eval value, _, opens, trace => by
    have inner := Expr.actions_effects_of_nodes value
      (fun id args called => opens id args (by simp [Stmt.nodes, called])) trace
    rw [Stmt.conduct, Conduct.all_act]
    exact inner
  | .setGlobal id value, _, opens, trace | .emit channel value, _, opens, trace => by
    have inner := Expr.actions_effects_of_nodes value
      (fun id args called => opens id args (by simp [Stmt.nodes, called])) trace
    rw [Stmt.conduct, Conduct.all_act, Stmt.effects, Trace.actions_push, inner, mul_assoc]
    rfl
  | .store id index value, _, opens, trace => by
    have first := Expr.actions_effects_of_nodes index
      (fun id args called => opens id args (by simp [Stmt.nodes, called])) trace
    have second := Expr.actions_effects_of_nodes value
      (fun id args called => opens id args (by simp [Stmt.nodes, called]))
      (index.effects opened trace)
    rw [Stmt.conduct, Conduct.all_act, Stmt.effects, Trace.actions_push, second, first, mul_assoc,
      mul_assoc, mul_assoc]
    rfl
  | .branch cond thenBody elseBody _, readable, opens, trace => by
    simp only [Stmt.readable, Bool.and_eq_true] at readable
    have decided := Expr.actions_effects_of_nodes cond.guard
      (fun id args called => opens id args
        (by simp [Stmt.nodes, cond.nodes_guard_subset called])) trace
    have inThen := Block.actions_effects thenBody readable.1
      (fun id args called => opens id args (by simp [Stmt.nodes, called])) {}
    have inElse := Block.actions_effects elseBody readable.2
      (fun id args called => opens id args (by simp [Stmt.nodes, called])) {}
    rw [Trace.actions_empty, one_mul] at inThen inElse
    have arms : (if cond.negated then
          Effect.branch (Block.effects opened elseBody {}).finish
            (Block.effects opened thenBody {}).finish
        else Effect.branch (Block.effects opened thenBody {}).finish
            (Block.effects opened elseBody {}).finish).actions tested =
        (Block.conduct calls thenBody).all + (Block.conduct calls elseBody).all := by
      rw [← inThen, ← inElse]
      split
      · exact add_comm _ _
      · rfl
    simp only [Stmt.effects]
    rw [Trace.actions_push, arms, decided, Stmt.conduct, Conduct.all_andThen, Conduct.all_either,
      Conduct.returned_act, Conduct.onward_act, zero_add, mul_assoc]
    unfold Expr.actions
    rw [Expr.pathCalls_guard]
  | .loop counter bound condition body, readable, opens, trace => by
    by_cases silent : (Stmt.loop counter bound condition body).silent = true
    · rw [Stmt.actions_effects_of_silent tested opened _ silent,
        Stmt.all_conduct_of_silent calls _ silent, mul_one]
    · rw [Stmt.readable, Bool.or_eq_true, or_iff_right silent] at readable
      simp only [Bool.and_eq_true, Bool.not_eq_true'] at readable
      have inner := Block.actions_effects body readable.1.2
        (fun id args called => opens id args (by simp [Stmt.nodes, called]))
      have stays := Conduct.eq_act (Block.returned_conduct calls body readable.1.1)
      rw [Stmt.conduct, stays]
      cases written : bound.writtenTrips? condition with
      | some trips =>
        obtain ⟨-, rfl, rfl⟩ := TripBound.writtenTrips?_eq_some_iff.mp written
        simp only [Stmt.effects, written]
        exact Trace.actions_iterate inner trips trace
      | none =>
        simp only [written, Option.isSome_none, Bool.false_or, Bool.and_eq_true,
          beq_iff_eq] at readable
        have untested : Args.actions calls condition.toList = 1 :=
          callActions_of_isEmpty calls readable.2.1
        have once : Effects.actions tested (Block.effects opened body
            (Args.effects opened condition.toList {})).finish = (Block.conduct calls body).all := by
          refine (inner _).trans ?_
          rw [Args.actions_effects_of_isEmpty readable.2.1, Trace.actions_empty, one_mul]
        simp only [Stmt.effects, written]
        rw [Trace.actions_push, Effect.actions, once, untested, readable.2.2]
  | .ret value, _, opens, trace => by
    have inner := Args.actions_effects_of_nodes value.toList
      (fun id args called => opens id args
        (by rw [Args.nodes_toList] at called; simp [Stmt.nodes, called])) trace
    rw [Stmt.conduct, Conduct.all, zero_add]
    exact inner

/-- The effects of a readable block stand for its runs. -/
theorem Block.actions_effects : ∀ block : Block, Block.readable tested block = true →
    (∀ id args, .call id args ∈ Block.nodes block → Opens tested opened calls id) → ∀ trace,
      (Block.effects opened block trace).actions tested =
        trace.actions tested * (Block.conduct calls block).all
  | [], _, _, trace => by
    rw [Block.conduct, Conduct.all_act, mul_one]
    rfl
  | s :: rest, readable, opens, trace => by
    simp only [Block.readable, Bool.and_eq_true, Bool.or_eq_true, Bool.not_eq_true'] at readable
    have first := Stmt.actions_effects s readable.1.1
      (fun id args called => opens id args (by simp [Block.nodes, called])) trace
    have others := Block.actions_effects rest readable.2
      (fun id args called => opens id args (by simp [Block.nodes, called])) (s.effects opened trace)
    rw [Block.effects, others, first, Block.conduct, Conduct.all_andThen, mul_assoc]
    congr 1
    rcases readable.1.2 with stays | silent
    · rw [Conduct.all, Stmt.returned_conduct calls s stays, add_zero, zero_add]
    · rw [Block.all_conduct_of_silent calls rest silent, mul_one, mul_one, add_comm]
      rfl

end

end Bodies

/-! ## Functions -/

namespace View

variable {view : View} {tested : TripBound → Bool}

/-- All functions that calls can lead to from here are readable. -/
def ReadableFrom (view : View) (tested : TripBound → Bool) (id : FunctionId) : Prop :=
  ∀ other function, Relation.ReflTransGen view.Calls id other →
    view.function? other = some function → Block.readable tested function.body = true

/-- The functions that a readable one calls are readable. -/
theorem ReadableFrom.callee {id callee : FunctionId} (readable : view.ReadableFrom tested id)
    (called : view.Calls id callee) : view.ReadableFrom tested callee :=
  fun other function reached => readable other function (.head called reached)

/-- Without recursion, calls of readable functions are replaced by effects that stand for
their runs, at the same depth of calls. -/
theorem opens_unfolding (acyclic : view.Acyclic) (depth : Nat) : ∀ active id,
    (∀ other ∈ active, Relation.TransGen view.Calls other id) → view.ReadableFrom tested id →
      Opens tested (unfolding view.function? depth active) (view.actionsWithin depth) id := by
  induction depth with
  | zero => exact fun _ _ _ _ => rfl
  | succ depth ih =>
    intro active id leads readable
    have idle : ¬active.contains id = true := fun listed =>
      acyclic id (leads id (List.contains_iff_mem.mp listed))
    unfold Opens unfolding
    rw [expandCalls, if_neg idle, actionsWithin]
    cases found : view.function? id with
    | none => rfl
    | some function =>
      refine Block.actions_effects function.body (readable id function .refl found)
        fun callee args node => ?_
      have called : callee ∈ function.callees := Block.mem_callees.mpr ⟨args, node⟩
      exact ih (id :: active) callee (leads_callee leads found called)
        (readable.callee ⟨function, found, called⟩)

/-- The effects of a readable function without recursion stand for its complete runs. -/
theorem actions_effects? (acyclic : view.Acyclic) (bounded : view.Bounded) {id : FunctionId}
    (readable : view.ReadableFrom tested id) {effects : List Effect}
    (known : view.effects? id = some effects) :
    Effects.actions tested effects = view.actions id := by
  obtain ⟨function, found, rfl⟩ := Option.map_eq_some_iff.mp known
  have runs := Block.actions_effects function.body (readable id function .refl found)
    (fun callee args node => opens_unfolding acyclic view.capacity [id] callee
      (leads_callee nofun found (Block.mem_callees.mpr ⟨args, node⟩))
      (readable.callee ⟨function, found, Block.mem_callees.mpr ⟨args, node⟩⟩)) {}
  rw [Trace.actions_empty, one_mul] at runs
  rw [actions_of_acyclic acyclic bounded (Nat.le_succ _), actionsWithin, found]
  exact runs

end View

/-! ## Programs -/

/-- Calls that only lead to higher ranks lead to no recursion. -/
theorem View.acyclic_of_rank {view : View} (rank : FunctionId → Nat)
    (upward : ∀ caller callee, view.Calls caller callee → rank caller < rank callee) :
    view.Acyclic := by
  have climbs {start finish : FunctionId} (path : Relation.TransGen view.Calls start finish) :
      rank start < rank finish := by
    induction path with
    | single call => exact upward _ _ call
    | tail _ call ih => exact ih.trans (upward _ _ call)
  exact fun id cycle => Nat.lt_irrefl _ (climbs cycle)

/-- All calls of a program go to later slots. -/
def Program.CallsForward (program : Program) : Prop :=
  ∀ entry ∈ program.functions.entries, ∀ callee ∈ entry.2.callees, entry.1.slot < callee.slot

instance (program : Program) : Decidable program.CallsForward :=
  inferInstanceAs (Decidable (∀ entry ∈ program.functions.entries, _))

/-- A view of a program whose calls go to later slots has no recursion. -/
theorem Program.CallsForward.acyclic {program : Program} (forward : program.CallsForward)
    {view : View} (same : view.function? = program.function?) : view.Acyclic := by
  refine View.acyclic_of_rank Id.slot ?_
  rintro caller callee ⟨function, found, called⟩
  rw [same] at found
  exact forward (caller, function) (Arena.mem_entries.mpr found) callee called

/-- A view of a program of readable functions is readable. -/
theorem View.readableFrom_of_entries {program : Program} {tested : TripBound → Bool}
    (readable : ∀ entry ∈ program.functions.entries, Block.readable tested entry.2.body = true)
    {view : View} (same : view.function? = program.function?) (id : FunctionId) :
    view.ReadableFrom tested id := by
  intro other function _ found
  rw [same] at found
  exact readable (other, function) (Arena.mem_entries.mpr found)

/-- A program has no more functions than slots. -/
theorem Program.view_bounded (program : Program) : program.view.Bounded := by
  refine ⟨(Finset.range program.functions.slotCount).image Id.mk, ?_, fun id function found => ?_⟩
  · exact Finset.card_image_le.trans (Finset.card_range _).le
  · exact Finset.mem_image.mpr ⟨id.slot, Finset.mem_range.mpr (Arena.slot_lt_of_get? found), rfl⟩

/-- Before some changes there were no more functions than slots and changes. -/
theorem Changes.viewBefore_bounded (changes : Changes) (after : Program) :
    (changes.viewBefore after).Bounded := by
  refine ⟨(Finset.range after.functions.slotCount).image Id.mk ∪ changes.functions.keys.toFinset,
    ?_, fun id function found => ?_⟩
  · have listed : changes.functions.keys.length = changes.functions.size := List.length_map _
    refine (Finset.card_union_le _ _).trans (Nat.add_le_add ?_ ?_)
    · exact Finset.card_image_le.trans (Finset.card_range _).le
    · exact (List.toFinset_card_le _).trans listed.le
  · rw [Finset.mem_union, List.mem_toFinset, Table.mem_keys]
    cases recorded : changes.functions.get? id with
    | some held => exact .inr rfl
    | none =>
      have kept : after.functions.get? id = some function := by
        have looked : (changes.functions.get? id).getD (after.functions.get? id) = some function :=
          found
        rwa [recorded, Option.getD_none] at looked
      exact .inl (Finset.mem_image.mpr
        ⟨id.slot, Finset.mem_range.mpr (Arena.slot_lt_of_get? kept), rfl⟩)

namespace Guided

/-- Functions that the certificate accepts do the same things before and after: the
complete runs of a touched function have the same sequences of actions, provided that there
is no recursion and that all functions it can lead to are readable. -/
theorem certified_actions_eq {tuning : Tuning} {changes : Changes} {after : Program}
    (acyclicBefore : (changes.viewBefore after).Acyclic) (acyclic : after.view.Acyclic)
    (certified : (pass tuning).certify changes after = true) {id : FunctionId}
    (touched : changes.touches id = true) {tested : TripBound → Bool}
    (readableBefore : (changes.viewBefore after).ReadableFrom tested id)
    (readable : after.view.ReadableFrom tested id) :
    (changes.viewBefore after).actions id = after.view.actions id := by
  obtain ⟨present, same⟩ := certify_eq_true_iff.mp certified id touched
  obtain ⟨effects, traced⟩ := Option.isSome_iff_exists.mp present
  have before : (changes.viewBefore after).effects? id = some effects :=
    (View.effectTrace_of_isSome present).symm.trans traced
  have tracedAfter : after.view.effectTrace id = some effects := same.symm.trans traced
  have now : after.view.effects? id = some effects := by
    rw [← View.effectTrace_of_isSome (by rw [tracedAfter]; rfl), tracedAfter]
  have stood := View.actions_effects? acyclicBefore (changes.viewBefore_bounded after)
    readableBefore before
  have stands := View.actions_effects? acyclic after.view_bounded readable now
  exact stood.symm.trans stands

/-- An entry point that calls `tick` six times, then waits for a global, and sends one of
two values last. -/
def ticker : Program where
  functions.slots := [
    some {
      name := entryPoint
      params := [⟨"last", .bool⟩]
      body := [
        .loop (some "i") (.exact 6) none [.eval (.call ⟨1⟩ [])],
        .loop none (.declared 9) (some (.global ⟨0⟩)) [.setGlobal ⟨0⟩ (.lit (.ofBool false))],
        .branch (.var "last") [.emit 2 (.var "last"), .ret none] [.emit 3 (.var "last")] none] },
    some {
      name := "tick"
      body := [.emit 1 (.lit (.ofBool true)), .ret none] }]
  globals.slots := [some { name := "busy", type := .bool }]

/-- The analysis of `ticker`. -/
def tickerAnalysis : Analysis := (ticker.analyze none).toOption.getD {}

/-- The execution of the pass on `ticker` with everything switched on. -/
def tickerRun : Execution := (pass {}).execute 0 ticker tickerAnalysis

/-- The entry point of `ticker` is rewritten: the call is expanded and the first loop is
unrolled. The certificate is given, and the entry point does the same things as before. -/
theorem certified_actions_eq_ticker :
    ticker.analyze none = .ok tickerAnalysis ∧ tickerRun.changes.functions.keys = [⟨0⟩] ∧
      (pass {}).certify tickerRun.changes tickerRun.program = true ∧
      (tickerRun.changes.viewBefore tickerRun.program).actions ⟨0⟩ =
        tickerRun.program.view.actions ⟨0⟩ := by
  have analyzed : ticker.analyze none = .ok tickerAnalysis := rfl
  have certified : (pass {}).certify tickerRun.changes tickerRun.program = true := by
    decide +kernel
  have sameBefore : (tickerRun.changes.viewBefore tickerRun.program).function? = ticker.function? :=
    viewBefore_function?
  have forwardBefore : ticker.CallsForward := by decide +kernel
  have forward : tickerRun.program.CallsForward := by decide +kernel
  have readableBefore : ∀ entry ∈ ticker.functions.entries,
      Block.readable (fun _ => true) entry.2.body = true := by decide +kernel
  have readable : ∀ entry ∈ tickerRun.program.functions.entries,
      Block.readable (fun _ => true) entry.2.body = true := by decide +kernel
  refine ⟨analyzed, by decide +kernel, certified, ?_⟩
  exact certified_actions_eq (forwardBefore.acyclic sameBefore) (forward.acyclic rfl) certified
    (by decide +kernel) (View.readableFrom_of_entries readableBefore sameBefore ⟨0⟩)
    (View.readableFrom_of_entries readable rfl ⟨0⟩)

/-! ## Bodies that the certificate confuses -/

/-- A function that sends something and answers. -/
def ready : Function where
  name := "ready"
  result := some .bool
  body := [.emit 1 (.lit (.ofBool true)), .ret (some (.lit (.ofBool true)))]

/-- An entry point with this body. -/
def watcher (body : Block) : Function where
  name := entryPoint
  params := [⟨"c", .bool⟩]
  body

/-- An entry point with this body, and `ready`. -/
def watch (body : Block) : Program where
  functions.slots := [some (watcher body), some ready]

/-- `watch` while the entry point is recorded to get another body. -/
def rewatch (body newBody : Block) : Program :=
  ((watch body).openJournal.updateFunction? ⟨0⟩ fun f => { f with body := newBody }).getD {}

/-- The record says how the program was. -/
theorem function?_rewatch (body newBody : Block) :
    ((rewatch body newBody).changes.viewBefore (rewatch body newBody).closeJournal).function? =
      (watch body).function? := by
  funext id
  have updated : (watch body).openJournal.functions.update? ⟨0⟩
      (fun f => { f with body := newBody }) = some (rewatch body newBody).functions := rfl
  exact Arena.before?_update rfl updated id

/-- The certificate accepts that the entry point gets another body, and nothing recurs
before or after. But the entry point could end without an action, and no longer can. -/
structure Misjudged (body newBody : Block) : Prop where
  /-- The certificate accepts the change. -/
  certified : (pass {}).certify (rewatch body newBody).changes
    (rewatch body newBody).closeJournal = true
  /-- The entry point is changed. -/
  touched : (rewatch body newBody).changes.touches ⟨0⟩ = true
  /-- There was no recursion. -/
  acyclicBefore :
    ((rewatch body newBody).changes.viewBefore (rewatch body newBody).closeJournal).Acyclic
  /-- There is no recursion. -/
  acyclic : (rewatch body newBody).closeJournal.view.Acyclic
  /-- A run could do nothing. -/
  idleBefore : [] ∈
    ((rewatch body newBody).changes.viewBefore (rewatch body newBody).closeJournal).actions ⟨0⟩
  /-- Every run does something. -/
  acts : [] ∉ (rewatch body newBody).closeJournal.view.actions ⟨0⟩

/-- Two sequences in a row are empty when both are. -/
@[simp] theorem nil_mem_mul {first second : Language Action} :
    [] ∈ first * second ↔ [] ∈ first ∧ [] ∈ second := by
  rw [Language.mem_mul]
  constructor
  · rintro ⟨one, inFirst, other, inSecond, joined⟩
    obtain ⟨rfl, rfl⟩ := List.append_eq_nil_iff.mp joined
    exact ⟨inFirst, inSecond⟩
  · exact fun ⟨inFirst, inSecond⟩ => ⟨[], inFirst, [], inSecond, rfl⟩

/-- One action is not nothing. -/
@[simp] theorem nil_notMem_single (action : Action) : [] ∉ ({[action]} : Language Action) :=
  fun listed => List.cons_ne_nil _ _ (Set.mem_singleton_iff.mp listed).symm

/-- `ready` cannot end without an action. -/
theorem ready_acts {view : View} (found : view.function? ⟨1⟩ = some ready) (depth : Nat) :
    [] ∉ view.actionsWithin depth ⟨1⟩ := by
  cases depth with
  | zero => exact Language.notMem_zero _
  | succ depth =>
    rw [View.actionsWithin, found]
    simp [ready, Conduct.all, Block.conduct, Stmt.conduct, Conduct.andThen]

/-- A change is misjudged when the certificate accepts it, the old body has a run without
calls that does nothing, and the new one has none as long as `ready` does something. -/
theorem Misjudged.of_bodies {body newBody : Block}
    (certified : (pass {}).certify (rewatch body newBody).changes
      (rewatch body newBody).closeJournal = true)
    (forwardBefore : (watch body).CallsForward)
    (forward : (rewatch body newBody).closeJournal.CallsForward)
    (idle : [] ∈ (Block.conduct (fun _ => 0) body).all)
    (acts : ∀ calls, [] ∉ calls ⟨1⟩ → [] ∉ (Block.conduct calls newBody).all) :
    Misjudged body newBody where
  certified
  touched := rfl
  acyclicBefore := forwardBefore.acyclic (function?_rewatch body newBody)
  acyclic := forward.acyclic rfl
  idleBefore := by
    have held := congrFun (function?_rewatch body newBody) ⟨0⟩
    have found : (watch body).function? ⟨0⟩ = some (watcher body) := rfl
    exact View.mem_actions (held.trans found) 0 idle
  acts := by
    have found : (rewatch body newBody).closeJournal.view.function? ⟨0⟩ =
        some (watcher newBody) := rfl
    exact View.notMem_actions found fun depth => acts _ (ready_acts rfl depth)

/-- The certificate misses an early return that is dropped, a condition of a loop that is
dropped, and a call that moves from the body of a loop into its condition. -/
theorem certified_actions_differ :
    Misjudged [.branch (.var "c") [.ret none] [] none, .emit 1 (.var "c")]
        [.branch (.var "c") [] [] none, .emit 1 (.var "c")] ∧
      Misjudged [.loop none (.declared 2) (some (.var "c")) [.emit 1 (.var "c")]]
        [.loop none (.declared 2) none [.emit 1 (.var "c")]] ∧
      Misjudged
        [.loop none (.declared 2) (some (.var "c")) [.eval (.call ⟨1⟩ []), .emit 2 (.var "c")]]
        [.loop none (.declared 2) (some (.call ⟨1⟩ [])) [.emit 2 (.var "c")]] := by
  refine ⟨.of_bodies (by decide +kernel) (by decide +kernel) (by decide +kernel) ?_ ?_,
    .of_bodies (by decide +kernel) (by decide +kernel) (by decide +kernel) ?_ ?_,
    .of_bodies (by decide +kernel) (by decide +kernel) (by decide +kernel) ?_ ?_⟩
  -- Whether a body can do nothing is computed along its statements.
  all_goals
    simp +contextual [Conduct.all, Language.mem_add, Block.conduct, Stmt.conduct,
      Conduct.andThen, Conduct.either, Conduct.act, TripBound.conduct, TripBound.limit?,
      Conduct.turns, Expr.actions, Args.actions, Expr.pathCalls, Args.pathCalls, callActions]

end Guided

end Timebound
