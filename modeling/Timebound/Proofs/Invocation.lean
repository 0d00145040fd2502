import Timebound.Program.Basic
import Timebound.Proofs.Semantics

/-!
# Meaning of programs

In a program a call runs the body of its callee on local variables of its own, which
hold the arguments. Functions may call each other without end, so calls nested deeper
than a given depth are not waited for. Programs whose functions mean the same, one by
one and whatever calls do, cannot be told apart by invoking them, at any depth
(`Program.SameMeaning.invoke`).
-/

namespace Timebound

/-- What a function does with its arguments, given what calls do. -/
def Function.activate (function : Function) (setting : Setting) (args : List Literal) :
    Run (Option Literal) :=
  Block.activate setting function.params function.body args

namespace Program

/-- What calls do in a program, as long as no more than `depth` of them are nested. -/
def setting (program : Program) (patience : Nat) : Nat → Setting
  | 0 => { call := fun _ _ => throw .unfinished, patience }
  | depth + 1 => {
      call := fun id args => match (program.function? id).map Function.activate with
        | some act => act (program.setting patience depth) args
        | none => throw .badCall
      patience }

/-- Call a function of a program from outside. -/
def invoke (program : Program) (patience depth : Nat) (id : FunctionId) (args : List Literal) :
    Run (Option Literal) :=
  (program.setting patience depth).call id args

/-- Programs with functions of the same meaning under the same ids, whatever calls do. -/
def SameMeaning (one other : Program) : Prop :=
  ∀ id, (one.function? id).map Function.activate = (other.function? id).map Function.activate

/-- Calls do the same in programs of the same meaning. -/
theorem SameMeaning.setting {one other : Program} (same : one.SameMeaning other)
    (patience depth : Nat) : one.setting patience depth = other.setting patience depth := by
  induction depth with
  | zero => rfl
  | succ depth ih => simp only [Program.setting, ih, same _]

/-- Invocations of programs of the same meaning are the same, with any arguments, globals
and output: they send the same values, leave the same globals and give the same result
or stop for the same reason. -/
theorem SameMeaning.invoke {one other : Program} (same : one.SameMeaning other)
    (patience depth : Nat) (id : FunctionId) (args : List Literal) :
    one.invoke patience depth id args = other.invoke patience depth id args := by
  unfold Program.invoke
  rw [same.setting]

/-- Giving a function a body that does the same keeps the meaning of a program. -/
theorem sameMeaning_update {program changed : Program} {id : FunctionId} {function : Function}
    {change : Function → Function} (found : program.function? id = some function)
    (updated : program.updateFunction? id change = some changed)
    (params : (change function).params = function.params)
    (body : ∀ setting, Block.run setting (change function).body =
      Block.run setting function.body) : changed.SameMeaning program := by
  intro other
  have lookup := function?_update found updated other
  by_cases same : other = id
  · subst same
    have acts : (change function).activate = function.activate := by
      funext setting args
      unfold Function.activate Block.activate
      rw [params, body]
    rw [if_pos rfl] at lookup
    rw [found]
    exact (congrArg (Option.map Function.activate) lookup).trans (congrArg some acts)
  · rw [if_neg same] at lookup
    exact congrArg (Option.map Function.activate) lookup

end Program

end Timebound
