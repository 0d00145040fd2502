import Mathlib.Logic.Function.Iterate
import Timebound.Effect.Trace

/-!
# Effects without a budget

The effects of a body and the work of writing them down, each by its own recursion.
The budget only decides whether there is a trace: building one succeeds exactly when
the work is within the budget, and then gives the effects (`View.traceOfBody_eq`).
Facts about traces are therefore facts about effects, which no budget cuts short, and
facts about work, which is a sum.
-/

namespace Timebound

/-- The loops that are written out are the short ones without a condition. -/
theorem TripBound.writtenTrips?_eq_some_iff {bound : TripBound} {condition : Option Expr}
    {trips : Nat} : bound.writtenTrips? condition = some trips ↔
      trips ≤ maxWrittenTrips ∧ bound = .exact trips ∧ condition = none := by
  constructor
  · intro written
    unfold TripBound.writtenTrips? at written
    split at written
    · split at written
      · cases written
        exact ⟨‹_›, rfl, rfl⟩
      · cases written
    · cases written
  · rintro ⟨short, rfl, rfl⟩
    exact if_pos short

/-! ## Effects -/

mutual

/-- The effects of an expression, added to a trace. `opened` gives what a call is
replaced by. -/
def Expr.effects (opened : FunctionId → Option (Trace → Trace)) : Expr → Trace → Trace
  | .lit _, trace => trace
  | .var _, trace => trace
  | .global id, trace => trace.read (.scalar id)
  | .load id index, trace =>
    (index.effects opened trace).read (.element id (index.literal?.map Literal.value))
  | .unary _ _ operand, trace => operand.effects opened trace
  | .binary _ _ left right, trace => right.effects opened (left.effects opened trace)
  | .call callee args, trace =>
    match opened callee with
    | some body => body (Args.effects opened args trace)
    | none => (Args.effects opened args trace).push (.call callee)

/-- The effects of arguments, added to a trace. -/
def Args.effects (opened : FunctionId → Option (Trace → Trace)) : List Expr → Trace → Trace
  | [], trace => trace
  | arg :: args, trace => Args.effects opened args (arg.effects opened trace)

end

mutual

/-- The effects of a statement, added to a trace. -/
def Stmt.effects (opened : FunctionId → Option (Trace → Trace)) : Stmt → Trace → Trace
  | .bind _ _ value, trace => value.effects opened trace
  | .assign _ value, trace => value.effects opened trace
  | .eval value, trace => value.effects opened trace
  | .setGlobal id value, trace => (value.effects opened trace).push (.write id)
  | .store id index value, trace =>
    (value.effects opened (index.effects opened trace)).push (.store id)
  | .emit channel value, trace => (value.effects opened trace).push (.emit channel)
  | .branch cond thenBody elseBody _, trace =>
    let thenEffects := (Block.effects opened thenBody {}).finish
    let elseEffects := (Block.effects opened elseBody {}).finish
    (cond.guard.effects opened trace).push
      (if cond.negated then .branch elseEffects thenEffects else .branch thenEffects elseEffects)
  | .loop _ bound condition body, trace =>
    match bound.writtenTrips? condition with
    | some trips => (Block.effects opened body)^[trips] trace
    | none =>
      let inner := Block.effects opened body (Args.effects opened condition.toList {})
      trace.push (.loop bound inner.finish)
  | .ret value, trace => Args.effects opened value.toList trace

/-- The effects of a block, added to a trace. -/
def Block.effects (opened : FunctionId → Option (Trace → Trace)) : List Stmt → Trace → Trace
  | [], trace => trace
  | s :: rest, trace => Block.effects opened rest (s.effects opened trace)

end

/-! ## Work -/

mutual

/-- The work of writing down the effects of an expression, given the work for each
callee. -/
def Expr.work (price : FunctionId → Nat) : Expr → Nat
  | .lit _ | .var _ | .global _ => 0
  | .load _ index => index.work price
  | .unary _ _ operand => operand.work price
  | .binary _ _ left right => left.work price + right.work price
  | .call callee args => Args.work price args + price callee

/-- The work for arguments. -/
def Args.work (price : FunctionId → Nat) : List Expr → Nat
  | [] => 0
  | arg :: args => arg.work price + Args.work price args

end

mutual

/-- The work for a statement, without the unit for the statement itself. -/
def Stmt.work (price : FunctionId → Nat) : Stmt → Nat
  | .bind _ _ value | .assign _ value | .eval value | .setGlobal _ value | .emit _ value =>
    value.work price
  | .store _ index value => index.work price + value.work price
  | .branch cond thenBody elseBody _ =>
    cond.guard.work price + (Block.work price thenBody + Block.work price elseBody)
  | .loop _ bound condition body =>
    match bound.writtenTrips? condition with
    | some trips => trips * (1 + Block.work price body)
    | none => Args.work price condition.toList + Block.work price body
  | .ret value => Args.work price value.toList

/-- The work for a block: one unit for every statement, and that for its parts. -/
def Block.work (price : FunctionId → Nat) : List Stmt → Nat
  | [] => 0
  | s :: rest => 1 + s.work price + Block.work price rest

end

/-! ## Steps behind a budget -/

/-- A step that goes through exactly when its cost is within the work left. -/
structure Gated (step : Tracing → Option Tracing) (cost : Nat) (act : Trace → Trace) : Prop where
  /-- With enough work left the step takes its cost. -/
  enough : ∀ tracing, cost ≤ tracing.work →
    step tracing = some ⟨tracing.work - cost, act tracing.trace⟩
  /-- With less there is no result. -/
  short : ∀ tracing, tracing.work < cost → step tracing = none

namespace Gated

variable {step next : Tracing → Option Tracing} {cost more : Nat} {act further : Trace → Trace}

/-- A step without cost. -/
theorem free (act : Trace → Trace) :
    Gated (fun tracing => some ⟨tracing.work, act tracing.trace⟩) 0 act where
  enough tracing _ := by rw [Nat.sub_zero]
  short tracing less := absurd less (Nat.not_lt_zero _)

/-- Steps in a row cost their sum. -/
theorem andThen (first : Gated step cost act) (second : Gated next more further) :
    Gated (fun tracing => step tracing >>= next) (cost + more) (further ∘ act) where
  enough tracing paid := by
    have rest := second.enough ⟨tracing.work - cost, act tracing.trace⟩
      (Nat.le_sub_of_add_le (by omega))
    rw [first.enough tracing (by omega), Option.bind_eq_bind, Option.bind_some, rest,
      Nat.sub_sub]
    rfl
  short tracing less := by
    by_cases paid : cost ≤ tracing.work
    · have rest := second.short ⟨tracing.work - cost, act tracing.trace⟩
        (Nat.sub_lt_left_of_lt_add paid less)
      rw [first.enough tracing paid, Option.bind_eq_bind, Option.bind_some, rest]
    · rw [first.short tracing (by omega)]
      rfl

/-- Paying one unit. -/
theorem charge : Gated Tracing.charge 1 id where
  enough tracing paid := by
    obtain ⟨work, trace⟩ := tracing
    cases work with
    | zero => simp at paid
    | succ work => rfl
  short tracing less := by
    obtain ⟨work, trace⟩ := tracing
    cases work with
    | zero => rfl
    | succ work => simp at less

/-- A step that is repeated pays for every repetition. -/
theorem times (once : Gated step cost act) (count : Nat) :
    Gated (Tracing.times step count) (count * (1 + cost)) act^[count] := by
  induction count with
  | zero =>
    rw [Nat.zero_mul]
    exact free id
  | succ count ih =>
    have turn := charge.andThen (once.andThen ih)
    have total : (count + 1) * (1 + cost) = 1 + (cost + count * (1 + cost)) := by
      rw [Nat.succ_mul]
      omega
    rw [total]
    exact turn

/-- A step on a trace of its own, which takes its cost from the work of the other. -/
theorem apart (inner : Gated step cost act) (after : List Effect → Tracing → Option Tracing)
    (second : Gated (after (act {}).finish) more further) :
    Gated (fun tracing => tracing.apart step >>= fun made => after made.1 made.2) (cost + more)
      further where
  enough tracing paid := by
    have rest := second.enough { tracing with work := tracing.work - cost }
      (Nat.le_sub_of_add_le (by omega))
    unfold Tracing.apart
    rw [inner.enough ⟨tracing.work, {}⟩ (Nat.le_trans (Nat.le_add_right _ _) paid),
      Option.map_some, Option.bind_eq_bind, Option.bind_some, rest, Nat.sub_sub]
  short tracing less := by
    unfold Tracing.apart
    by_cases paid : cost ≤ tracing.work
    · have rest := second.short { tracing with work := tracing.work - cost }
        (Nat.sub_lt_left_of_lt_add paid less)
      rw [inner.enough ⟨tracing.work, {}⟩ paid, Option.map_some, Option.bind_eq_bind,
        Option.bind_some, rest]
    · rw [inner.short ⟨tracing.work, {}⟩ (Nat.lt_of_not_le paid)]
      rfl

end Gated

/-! ## Traces of bodies -/

/-- Calls are replaced alike with and without a budget. -/
def CallsGated (expand : FunctionId → Option (Tracing → Option Tracing))
    (opened : FunctionId → Option (Trace → Trace)) (price : FunctionId → Nat) : Prop :=
  ∀ id, match expand id, opened id with
    | some step, some act => Gated step (price id) act
    | none, none => price id = 0
    | _, _ => False

section Bodies

variable {expand : FunctionId → Option (Tracing → Option Tracing)}
  {opened : FunctionId → Option (Trace → Trace)} {price : FunctionId → Nat}

mutual

/-- Tracing an expression goes through when its work can be paid. -/
theorem Expr.trace_gated (calls : CallsGated expand opened price) : ∀ e : Expr,
    Gated (e.trace expand) (e.work price) (e.effects opened)
  | .lit _ => .free id
  | .var _ => .free id
  | .global id => .free (·.read (.scalar id))
  | .load id index =>
    (Expr.trace_gated calls index).andThen
      (.free (·.read (.element id (index.literal?.map Literal.value))))
  | .unary _ _ operand => Expr.trace_gated calls operand
  | .binary _ _ left right => (Expr.trace_gated calls left).andThen (Expr.trace_gated calls right)
  | .call callee args => by
    have inside := Args.trace_gated calls args
    have replaced := calls callee
    cases expanded : expand callee with
    | none => cases unfolded : opened callee with
      | none =>
        rw [expanded, unfolded] at replaced
        simp only [Expr.trace, Expr.work, Expr.effects, expanded, unfolded, replaced]
        exact inside.andThen (.free (·.push (.call callee)))
      | some act => simp [expanded, unfolded] at replaced
    | some step => cases unfolded : opened callee with
      | none => simp [expanded, unfolded] at replaced
      | some act =>
        rw [expanded, unfolded] at replaced
        simp only [Expr.trace, Expr.work, Expr.effects, expanded, unfolded]
        exact inside.andThen replaced

/-- Tracing arguments goes through when their work can be paid. -/
theorem Args.trace_gated (calls : CallsGated expand opened price) : ∀ args : List Expr,
    Gated (Args.trace expand args) (Args.work price args) (Args.effects opened args)
  | [] => .free id
  | arg :: args => (Expr.trace_gated calls arg).andThen (Args.trace_gated calls args)

end

mutual

/-- Tracing a statement goes through when its work can be paid. -/
theorem Stmt.trace_gated (calls : CallsGated expand opened price) : ∀ s : Stmt,
    Gated (s.trace expand) (s.work price) (s.effects opened)
  | .bind _ _ value => Expr.trace_gated calls value
  | .assign _ value => Expr.trace_gated calls value
  | .eval value => Expr.trace_gated calls value
  | .setGlobal id value => (Expr.trace_gated calls value).andThen (.free (·.push (.write id)))
  | .store id index value => by
    have operand := (Expr.trace_gated calls value).andThen (.free (·.push (.store id)))
    exact (Expr.trace_gated calls index).andThen operand
  | .emit channel value => (Expr.trace_gated calls value).andThen (.free (·.push (.emit channel)))
  | .branch cond thenBody elseBody _ => by
    have decided := Expr.trace_gated calls cond.guard
    have thenDone := Block.trace_gated calls thenBody
    have elseDone := Block.trace_gated calls elseBody
    let join : List Effect → List Effect → Effect := fun thenEffects elseEffects =>
      if cond.negated then .branch elseEffects thenEffects else .branch thenEffects elseEffects
    have second := elseDone.apart
      (fun elseEffects after =>
        some (after.push (join (Block.effects opened thenBody {}).finish elseEffects)))
      (.free (Trace.push · (join _ _)))
    have arms := thenDone.apart
      (fun thenEffects middle => middle.apart (Block.trace expand elseBody) >>= fun made =>
        some (made.2.push (join thenEffects made.1))) second
    exact decided.andThen arms
  | .loop _ bound condition body => by
    have bodyDone := Block.trace_gated calls body
    cases written : bound.writtenTrips? condition with
    | some trips =>
      simpa only [Stmt.trace, Stmt.work, Stmt.effects, written] using bodyDone.times trips
    | none =>
      have inner := (Args.trace_gated calls condition.toList).andThen bodyDone
      simp only [Stmt.trace, Stmt.work, Stmt.effects, written]
      exact inner.apart (fun effects after => some (after.push (.loop bound effects)))
        (.free (Trace.push · (.loop bound _)))
  | .ret value => Args.trace_gated calls value.toList

/-- Tracing a block goes through when its work can be paid. -/
theorem Block.trace_gated (calls : CallsGated expand opened price) : ∀ block : Block,
    Gated (Block.trace expand block) (Block.work price block) (Block.effects opened block)
  | [] => .free id
  | s :: rest => by
    have parts := Gated.charge.andThen
      ((Stmt.trace_gated calls s).andThen (Block.trace_gated calls rest))
    rw [Block.work, Nat.add_assoc]
    exact parts

end

end Bodies

/-! ## Traces of functions -/

/-- What calls stand for while the `active` functions are being expanded: `kept` for a
call that stays a call, and otherwise what `make` gives for the body of the callee. The
depth bounds how many functions can be active below them. -/
def expandCalls {β : Type} (kept : β) (make : (FunctionId → β) → Block → β)
    (lookup : FunctionId → Option Function) : Nat → List FunctionId → FunctionId → β
  | 0, _, _ => kept
  | depth + 1, active, callee =>
    if active.contains callee then kept
    else match lookup callee with
      | some function =>
        make (expandCalls kept make lookup depth (callee :: active)) function.body
      | none => kept

/-- The effects that replace a call, if anything does. -/
def unfolding (lookup : FunctionId → Option Function) (depth : Nat) (active : List FunctionId) :
    FunctionId → Option (Trace → Trace) :=
  expandCalls none (fun opened block => some (Block.effects opened block)) lookup depth active

/-- The work for what replaces a call. -/
def unfoldingWork (lookup : FunctionId → Option Function) (depth : Nat)
    (active : List FunctionId) : FunctionId → Nat :=
  expandCalls 0 (fun price block => 1 + Block.work price block) lookup depth active

namespace View

/-- The effects of a function as if it had this body. -/
def effectsOfBody (view : View) (id : FunctionId) (body : Block) : List Effect :=
  (Block.effects (unfolding view.function? view.capacity [id]) body {}).finish

/-- The work of writing down the effects of a function as if it had this body. -/
def workOfBody (view : View) (id : FunctionId) (body : Block) : Nat :=
  Block.work (unfoldingWork view.function? view.capacity [id]) body

/-- The effects of a function, whatever work it takes to write them down. -/
def effects? (view : View) (id : FunctionId) : Option (List Effect) :=
  (view.function? id).map fun function => view.effectsOfBody id function.body

/-- The work of writing down the effects of a function. -/
def work? (view : View) (id : FunctionId) : Option Nat :=
  (view.function? id).map fun function => view.workOfBody id function.body

/-- A function whose work is within the budget. -/
def Fits (view : View) (id : FunctionId) : Prop :=
  ∃ work, view.work? id = some work ∧ work ≤ traceBudget

instance (view : View) (id : FunctionId) : Decidable (view.Fits id) :=
  decidable_of_iff ((view.work? id).any (· ≤ traceBudget) = true)
    (by simp [Fits, Option.any_eq_true])

/-- Calls are replaced alike with and without a budget. -/
theorem expansion_gated (view : View) (depth : Nat) : ∀ active : List FunctionId,
    CallsGated (view.expansion depth active) (unfolding view.function? depth active)
      (unfoldingWork view.function? depth active) := by
  induction depth with
  | zero => exact fun _ _ => rfl
  | succ depth ih =>
    intro active callee
    unfold unfolding unfoldingWork at ih ⊢
    unfold expansion expandCalls
    by_cases blocked : active.contains callee
    · simp only [blocked, if_true]
    · simp only [blocked, Bool.false_eq_true, if_false]
      cases view.function? callee with
      | none => rfl
      | some function =>
        exact Gated.charge.andThen (Block.trace_gated (ih (callee :: active)) function.body)

/-- Tracing a body under any budget goes through when the work is within it, and then
lists the effects. -/
theorem trace_eq (view : View) (id : FunctionId) (body : Block) (budget : Nat) :
    (Block.trace (view.expansion view.capacity [id]) body ⟨budget, {}⟩).map
        (fun tracing => tracing.trace.finish) =
      if view.workOfBody id body ≤ budget then some (view.effectsOfBody id body) else none := by
  have gated := Block.trace_gated (view.expansion_gated view.capacity [id]) body
  unfold effectsOfBody workOfBody
  split
  · rename_i paid
    rw [gated.enough ⟨budget, {}⟩ paid]
    rfl
  · rename_i less
    rw [gated.short ⟨budget, {}⟩ (Nat.lt_of_not_le less)]
    rfl

/-- The trace of a body exists when the work is within the budget, and then lists
the effects. -/
theorem traceOfBody_eq (view : View) (id : FunctionId) (body : Block) :
    view.traceOfBody id body =
      if view.workOfBody id body ≤ traceBudget then some (view.effectsOfBody id body) else none :=
  view.trace_eq id body traceBudget

/-- The trace of a function exists when its work is within the budget, and then lists
its effects. -/
theorem effectTrace_eq (view : View) (id : FunctionId) :
    view.effectTrace id = if view.Fits id then view.effects? id else none := by
  by_cases fits : view.Fits id
  · rw [if_pos fits]
    obtain ⟨work, known, within⟩ := fits
    obtain ⟨function, found, rfl⟩ := Option.map_eq_some_iff.mp known
    rw [effectTrace, effects?, found, Option.bind_some, Option.map_some, traceOfBody_eq,
      if_pos within]
  · rw [if_neg fits, effectTrace]
    cases found : view.function? id with
    | none => rfl
    | some function =>
      have exceeds : ¬ view.workOfBody id function.body ≤ traceBudget := fun within =>
        fits ⟨_, by rw [work?, found, Option.map_some], within⟩
      rw [Option.bind_some, traceOfBody_eq, if_neg exceeds]

/-- The trace of a function exists when its work is within the budget. -/
theorem isSome_effectTrace_iff (view : View) (id : FunctionId) :
    (view.effectTrace id).isSome = true ↔ view.Fits id := by
  rw [effectTrace_eq]
  by_cases fits : view.Fits id
  · have ⟨work, known, _⟩ := fits
    obtain ⟨function, found, counted⟩ := Option.map_eq_some_iff.mp known
    simp [fits, effects?, found]
  · simp [fits]

/-- A trace that exists lists the effects. -/
theorem effectTrace_of_isSome {view : View} {id : FunctionId}
    (present : (view.effectTrace id).isSome = true) : view.effectTrace id = view.effects? id := by
  rw [effectTrace_eq, if_pos ((view.isSome_effectTrace_iff id).mp present)]

end View

end Timebound
