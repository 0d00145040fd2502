import Timebound.Proofs.Invocation

/-!
# Depth of calls

What a body does with its calls is up to the setting. Relations of runs that sequencing
respects carry over from the calls of two settings to blocks that run in them
(`Block.run_congr`). Equality is one, so a block depends on what its own callees do only.
Another one is that a run ends as a second one does unless it is given up
(`Run.Approximates`), so waiting for deeper calls changes nothing about activations that
have ended before (`Program.setting_approximates`).
-/

namespace Timebound

/-! ## Relations of runs -/

namespace Run

/-- A relation of runs that sequencing respects. -/
structure Congruence (related : ∀ α : Type, Run α → Run α → Prop) : Prop where
  /-- Every run is related to itself. -/
  refl : ∀ {α : Type} (run : Run α), related α run run
  /-- Related runs that go on in related ways are related. -/
  bind : ∀ {α β : Type} {first second : Run α} {next other : α → Run β},
    related α first second → (∀ value, related β (next value) (other value)) →
      related β (first >>= next) (second >>= other)

/-- Equality is respected by sequencing. -/
theorem Congruence.eq : Congruence fun _ first second => first = second where
  refl _ := rfl
  bind same goOn := by rw [same, funext goOn]

namespace Congruence

variable {related : ∀ α : Type, Run α → Run α → Prop} (respected : Congruence related)

include respected

/-- Runs can be followed by the same on both sides. -/
theorem before {α β : Type} {first second : Run α} (runs : related α first second)
    (next : α → Run β) : related β (first >>= next) (second >>= next) :=
  respected.bind runs fun value => respected.refl (next value)

/-- Related runs stay related when their results are mapped. -/
theorem map {α β : Type} {first second : Run α} (runs : related α first second) (f : α → β) :
    related β (f <$> first) (f <$> second) := by
  rw [map_eq_pure_bind, map_eq_pure_bind]
  exact respected.before runs _

/-- Going on in related ways. -/
theorem next (flow : Flow) {following other : Locals → Run Flow}
    (goOn : ∀ locals, related Flow (following locals) (other locals)) :
    related Flow (flow.next following) (flow.next other) := by
  cases flow with
  | onward locals => exact goOn locals
  | returned value => exact respected.refl _

/-- Loops are related when their tests, iterations and ends are. -/
theorem loopTurns {counter : Option String} {test otherTest : Locals → Run Bool}
    {body otherBody : Locals → Run Flow} (spent : Locals → Run Flow)
    (tests : ∀ locals, related Bool (test locals) (otherTest locals))
    (bodies : ∀ locals, related Flow (body locals) (otherBody locals)) (left : Nat) :
    ∀ (turn : Nat) (locals : Locals),
      related Flow (Timebound.loopTurns counter test body spent left turn locals)
        (Timebound.loopTurns counter otherTest otherBody spent left turn locals) := by
  induction left with
  | zero => exact fun _ locals => respected.refl _
  | succ left ih =>
    intro turn locals
    simp only [Timebound.loopTurns]
    refine respected.bind (tests _) fun goesOn => ?_
    cases goesOn with
    | false => exact respected.refl _
    | true => exact respected.bind (bodies _) fun flow => respected.next _ (ih (turn + 1))

end Congruence

end Run

/-! ## Bodies in related settings -/

section Settings

variable {related : ∀ α : Type, Run α → Run α → Prop} {first second : Setting}

mutual

/-- An expression is related to itself in settings whose calls are. -/
theorem Expr.eval_congr (respected : Run.Congruence related) (locals : Locals) : ∀ e : Expr,
    (∀ id args, .call id args ∈ e.nodes → ∀ values,
      related _ (first.call id values) (second.call id values)) →
      related _ (e.eval first locals) (e.eval second locals)
  | .lit _, _ | .var _, _ | .global _, _ => respected.refl _
  | .load _ index, calls => by
    have inner := Expr.eval_congr respected locals index fun id args called =>
      calls id args (by simp [Expr.nodes, called])
    exact respected.before (respected.before inner _) _
  | .unary _ _ operand, calls => by
    have inner := Expr.eval_congr respected locals operand fun id args called =>
      calls id args (by simp [Expr.nodes, called])
    exact respected.before (respected.before inner _) _
  | .binary _ _ left right, calls => by
    have firstSame := Expr.eval_congr respected locals left fun id args called =>
      calls id args (by simp [Expr.nodes, called])
    have secondSame := Expr.eval_congr respected locals right fun id args called =>
      calls id args (by simp [Expr.nodes, called])
    exact respected.bind (respected.before firstSame _) fun _ =>
      respected.before (respected.before secondSame _) _
  | .call callee passed, calls => by
    have inner := Args.eval_congr respected locals passed fun id args called =>
      calls id args (by simp [Expr.nodes, called])
    exact respected.bind inner (calls callee passed (by simp [Expr.nodes]))

/-- Arguments are related to themselves in settings whose calls are. -/
theorem Args.eval_congr (respected : Run.Congruence related) (locals : Locals) :
    ∀ passed : List Expr,
    (∀ id args, .call id args ∈ Args.nodes passed → ∀ values,
      related _ (first.call id values) (second.call id values)) →
      related _ (Args.eval first locals passed) (Args.eval second locals passed)
  | [], _ => respected.refl _
  | arg :: passed, calls => by
    have here := Expr.eval_congr respected locals arg fun id args called =>
      calls id args (by simp [Args.nodes, called])
    have others := Args.eval_congr respected locals passed fun id args called =>
      calls id args (by simp [Args.nodes, called])
    exact respected.bind (respected.before here _) fun _ => respected.before others _

end

/-- A value is related to itself in settings whose calls are. -/
theorem Expr.value_congr (respected : Run.Congruence related) (locals : Locals) (e : Expr)
    (calls : ∀ id args, .call id args ∈ e.nodes → ∀ values,
      related _ (first.call id values) (second.call id values)) :
    related _ (e.value first locals) (e.value second locals) :=
  respected.before (Expr.eval_congr respected locals e calls) _

/-- A loop condition is related to itself in settings whose calls are. -/
theorem Expr.holds_congr (respected : Run.Congruence related) (condition : Option Expr)
    (calls : ∀ id args, .call id args ∈ Args.nodes condition.toList → ∀ values,
      related _ (first.call id values) (second.call id values)) (locals : Locals) :
    related _ (Expr.holds first condition locals) (Expr.holds second condition locals) := by
  cases condition with
  | none => exact respected.refl _
  | some e =>
    have inner := Expr.value_congr respected locals e fun id args called =>
      calls id args (by simpa [Args.nodes] using called)
    exact respected.before inner _

mutual

/-- A statement is related to itself in settings whose calls are. -/
theorem Stmt.run_congr (respected : Run.Congruence related)
    (patience : first.patience = second.patience) : ∀ (s : Stmt) (locals : Locals),
    (∀ id args, .call id args ∈ s.nodes → ∀ values,
      related _ (first.call id values) (second.call id values)) →
      related _ (s.run first locals) (s.run second locals)
  | .bind _ _ value, locals, calls | .assign _ value, locals, calls
  | .setGlobal _ value, locals, calls | .emit _ value, locals, calls => by
    have inner := Expr.value_congr respected locals value fun id args called =>
      calls id args (by simpa [Stmt.nodes] using called)
    simp only [Stmt.run]
    exact respected.before inner _
  | .store _ index value, locals, calls => by
    have position := Expr.value_congr respected locals index fun id args called =>
      calls id args (by simp [Stmt.nodes, called])
    have inner := Expr.value_congr respected locals value fun id args called =>
      calls id args (by simp [Stmt.nodes, called])
    simp only [Stmt.run]
    exact respected.bind position fun _ => respected.before inner _
  | .eval value, locals, calls => by
    have inner := Expr.eval_congr respected locals value fun id args called =>
      calls id args (by simpa [Stmt.nodes] using called)
    simp only [Stmt.run]
    exact respected.before inner _
  | .branch cond thenBody elseBody _, locals, calls => by
    have decided := Expr.value_congr respected locals cond fun id args called =>
      calls id args (by simp [Stmt.nodes, called])
    have inThen := Block.run_congr respected patience thenBody locals fun id args called =>
      calls id args (by simp [Stmt.nodes, called])
    have inElse := Block.run_congr respected patience elseBody locals fun id args called =>
      calls id args (by simp [Stmt.nodes, called])
    simp only [Stmt.run]
    refine respected.bind decided fun decision => ?_
    split
    · exact inElse
    · exact inThen
  | .loop counter bound condition body, locals, calls => by
    have tests := Expr.holds_congr respected condition fun id args called =>
      calls id args (by rw [Args.nodes_toList] at called; simp [Stmt.nodes, called])
    have turns (inner : Locals) := Block.run_congr respected patience body inner
      fun id args called => calls id args (by simp [Stmt.nodes, called])
    simp only [Stmt.run, TripBound.turns, patience]
    cases bound.limit? with
    | none => exact respected.loopTurns _ tests turns _ _ _
    | some trips => exact respected.loopTurns _ tests turns _ _ _
  | .ret none, _, _ => respected.refl _
  | .ret (some value), locals, calls => by
    have inner := Expr.eval_congr respected locals value fun id args called =>
      calls id args (by simpa [Stmt.nodes] using called)
    simp only [Stmt.run]
    exact respected.map inner _

/-- A block is related to itself in settings whose calls are. -/
theorem Block.run_congr (respected : Run.Congruence related)
    (patience : first.patience = second.patience) : ∀ (block : Block) (locals : Locals),
    (∀ id args, .call id args ∈ Block.nodes block → ∀ values,
      related _ (first.call id values) (second.call id values)) →
      related _ (Block.run first block locals) (Block.run second block locals)
  | [], _, _ => respected.refl _
  | s :: rest, locals, calls => by
    have here := Stmt.run_congr respected patience s locals fun id args called =>
      calls id args (by simp [Block.nodes, called])
    have others (inner : Locals) := Block.run_congr respected patience rest inner
      fun id args called => calls id args (by simp [Block.nodes, called])
    simp only [Block.run]
    exact respected.bind here fun flow =>
      respected.next flow fun inner => respected.map (others inner) _

end

/-- An activation is related to itself in settings whose calls are. -/
theorem Block.activate_congr (respected : Run.Congruence related)
    (patience : first.patience = second.patience) (params : List Parameter) (body : Block)
    (calls : ∀ id args, .call id args ∈ Block.nodes body → ∀ values,
      related _ (first.call id values) (second.call id values)) (args : List Literal) :
    related _ (Block.activate first params body args) (Block.activate second params body args) := by
  unfold Block.activate
  split
  · exact respected.map (Block.run_congr respected patience body _ calls) _
  · exact respected.refl _

end Settings

/-! ## Runs that are given up -/

namespace Run

variable {α : Type}

/-- A run that ends as another one does, unless it is given up. -/
def Approximates (first second : Run α) : Prop :=
  ∀ world, first.run.run world = second.run.run world ∨
    (first.run.run world).1 = .error .unfinished

/-- Approximation is respected by sequencing. -/
theorem approximates_congruence : Congruence fun _ first second => Approximates first second where
  refl _ _ := .inl rfl
  bind {α β first second next other} runs goOn := by
    intro world
    simp only [ExceptT.run_bind, StateT.run_bind]
    rcases runs world with same | given
    · rw [same]
      generalize second.run.run world = ended
      obtain ⟨result, middle⟩ := ended
      cases result with
      | ok value => exact goOn value middle
      | error halt => exact .inl rfl
    · generalize first.run.run world = ended at given
      obtain ⟨result, middle⟩ := ended
      cases given
      exact .inr rfl

/-- Approximations of approximations. -/
theorem Approximates.trans {first second third : Run α} (one : Approximates first second)
    (other : Approximates second third) : Approximates first third := by
  intro world
  rcases one world with same | given
  · rw [same]
    exact other world
  · exact .inr given

end Run

/-! ## Depth -/

namespace Program

variable (program : Program) (patience : Nat)

/-- Patience does not depend on depth. -/
@[simp] theorem patience_setting (depth : Nat) :
    (program.setting patience depth).patience = patience := by
  cases depth <;> rfl

/-- A call of a function runs its body one level deeper. -/
theorem call_setting {id : FunctionId} {function : Function}
    (found : program.function? id = some function) (depth : Nat) (args : List Literal) :
    (program.setting patience (depth + 1)).call id args =
      function.activate (program.setting patience depth) args := by
  simp only [setting, found, Option.map_some]

/-- Calls that are waited for one level deeper end alike if they have ended before. -/
theorem setting_approximates (depth : Nat) (id : FunctionId) (args : List Literal) :
    Run.Approximates ((program.setting patience depth).call id args)
      ((program.setting patience (depth + 1)).call id args) := by
  induction depth generalizing id args with
  | zero => exact fun _ => .inr rfl
  | succ depth ih =>
    cases found : program.function? id with
    | none =>
      have missing (depth : Nat) : (program.setting patience (depth + 1)).call id args =
          throw .badCall := by simp only [setting, found, Option.map_none]
      rw [missing, missing]
      exact Run.approximates_congruence.refl _
    | some function =>
      rw [call_setting program patience found, call_setting program patience found]
      exact Block.activate_congr Run.approximates_congruence (by simp) function.params function.body
        (fun id _ _ values => ih id values) args

/-- What calls do when those of one function are waited for one level deeper. -/
def settingBelow (depth : Nat) (id : FunctionId) : Setting where
  call other args :=
    (program.setting patience (if other = id then depth + 1 else depth)).call other args
  patience := patience

variable (depth : Nat) (id : FunctionId)

/-- Calls end alike when those of one function are waited for longer. -/
theorem approximates_settingBelow (other : FunctionId) (args : List Literal) :
    Run.Approximates ((program.setting patience depth).call other args)
      ((program.settingBelow patience depth id).call other args) := by
  unfold settingBelow
  dsimp only
  split
  · exact program.setting_approximates patience depth other args
  · exact Run.approximates_congruence.refl _

/-- Calls end alike when all are waited for as long as those of one function. -/
theorem settingBelow_approximates (other : FunctionId) (args : List Literal) :
    Run.Approximates ((program.settingBelow patience depth id).call other args)
      ((program.setting patience (depth + 1)).call other args) := by
  unfold settingBelow
  dsimp only
  split
  · exact Run.approximates_congruence.refl _
  · exact program.setting_approximates patience depth other args

/-- A function that does not call itself runs there as calls of it do. -/
theorem call_settingBelow {id : FunctionId} {function : Function}
    (found : program.function? id = some function) (plain : id ∉ function.callees)
    (args : List Literal) :
    (program.settingBelow patience depth id).call id args =
      function.activate (program.settingBelow patience depth id) args := by
  have here : (program.settingBelow patience depth id).call id args =
      (program.setting patience (depth + 1)).call id args := by
    simp only [settingBelow, if_true]
  rw [here, call_setting program patience found]
  refine Block.activate_congr .eq (by simp [settingBelow]) function.params function.body ?_ args
  intro other passed node values
  have apart : other ≠ id := fun same =>
    plain (same ▸ Block.mem_callees.mpr ⟨passed, node⟩)
  simp only [settingBelow, if_neg apart]

end Program

end Timebound
