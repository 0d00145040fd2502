import Timebound.Program.Basic

/-!
# Listings

The text of a program: its globals, then its functions, in slot order. Calls and
globals are shown by name, missing ones by id. Nested blocks are indented by two
spaces per level; an empty else-arm is left out.
-/

namespace Timebound

/-- The mark of entries that outside code may use. -/
def exportMark (exported : Bool) : String := if exported then "export " else ""

mutual

/-- The text of an expression. -/
def Expr.text (program : Program) : Expr → String
  | .lit value => value.text
  | .var name => name
  | .global id => program.globalLabel id
  | .load id index => program.globalLabel id ++ "[" ++ index.text program ++ "]"
  | .unary op _ operand => op.symbol ++ operand.text program
  | .binary op _ left right =>
    "(" ++ left.text program ++ " " ++ op.symbol ++ " " ++ right.text program ++ ")"
  | .call callee args =>
    program.functionLabel callee ++ "(" ++ ", ".intercalate (Args.texts program args) ++ ")"

/-- The texts of arguments. -/
def Args.texts (program : Program) : List Expr → List String
  | [] => []
  | arg :: args => arg.text program :: Args.texts program args

end

/-- The text of a trip bound. -/
def TripBound.text : TripBound → String
  | exact trips => "x" ++ toString trips
  | declared trips => "max " ++ toString trips
  | unknown => "unbounded"

/-- The space before a statement at a nesting depth. -/
def indentation : Nat → String
  | 0 => ""
  | depth + 1 => "  " ++ indentation depth

mutual

/-- The lines of a statement at a nesting depth. -/
def Stmt.lines (program : Program) (depth : Nat) : Stmt → List String
  | .bind name type value =>
    [indentation depth ++ "let " ++ name ++ ": " ++ type.text ++ " = " ++ value.text program]
  | .assign name value => [indentation depth ++ name ++ " = " ++ value.text program]
  | .setGlobal id value =>
    [indentation depth ++ program.globalLabel id ++ " = " ++ value.text program]
  | .store id index value =>
    [indentation depth ++ program.globalLabel id ++ "[" ++ index.text program ++ "] = " ++
      value.text program]
  | .emit channel value =>
    [indentation depth ++ "io[" ++ toString channel ++ "] <- " ++ value.text program]
  | .eval value => [indentation depth ++ value.text program]
  | .branch cond thenBody elseBody likelihood =>
    let mark := (likelihood.map fun thousandths => " @" ++ toString thousandths).getD ""
    let thenLines := Block.lines program (depth + 1) thenBody
    let elseLines := Block.lines program (depth + 1) elseBody
    [indentation depth ++ "if " ++ cond.text program ++ mark ++ " \x7b"] ++ thenLines ++
      (if elseBody.isEmpty then [] else (indentation depth ++ "\x7d else \x7b") :: elseLines) ++
      [indentation depth ++ "\x7d"]
  | .loop counter bound condition body =>
    let name := (counter.map (" " ++ ·)).getD ""
    let exit := (condition.map fun cond => " while " ++ cond.text program).getD ""
    [indentation depth ++ "loop" ++ name ++ " " ++ bound.text ++ exit ++ " \x7b"] ++
      Block.lines program (depth + 1) body ++ [indentation depth ++ "\x7d"]
  | .ret value =>
    [indentation depth ++ "return" ++ (value.map fun e => " " ++ e.text program).getD ""]

/-- The lines of a block at a nesting depth. -/
def Block.lines (program : Program) (depth : Nat) : List Stmt → List String
  | [] => []
  | s :: rest => s.lines program depth ++ Block.lines program depth rest

end

namespace Program

/-- The line of a global. -/
def globalLine (global : Global) : String :=
  exportMark global.exported ++ "global " ++ global.name ++ ": " ++ global.type.text ++ "[" ++
    toString global.length ++ "] = " ++ global.init.text

/-- The lines of a function. -/
def functionLines (program : Program) (function : Function) : List String :=
  let params := function.params.map fun param => param.name ++ ": " ++ param.type.text
  let result := (function.result.map fun type => " -> " ++ type.text).getD ""
  let limit := (function.recursionLimit.map fun n => " recursion(" ++ toString n ++ ")").getD ""
  [exportMark function.exported ++ "fn " ++ function.name ++ "(" ++ ", ".intercalate params ++
    ")" ++ result ++ limit ++ " \x7b"] ++ Block.lines program 1 function.body ++ ["\x7d"]

/-- The listing of a program; every line ends with a line break. -/
def text (program : Program) : String :=
  let globals := program.globals.entries.map fun entry => globalLine entry.2
  let functions := program.functions.entries.flatMap fun entry => program.functionLines entry.2
  String.join ((globals ++ functions).map (· ++ "\n"))

end Program

end Timebound
