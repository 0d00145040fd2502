import Timebound.Program.Id

/-!
# Errors of programs

What can be wrong with a program or with a step of assembling one, and the
message of each error.
-/

namespace Timebound

/-- A mention of a program entry in a body. -/
inductive Reference where
  | callee (id : FunctionId)
  | global (id : GlobalId)
  deriving DecidableEq

/-- The text of a mention whose entry is missing. -/
def Reference.text : Reference → String
  | callee id => "callee " ++ id.text
  | global id => id.text

/-- An error in a program or in a step of assembling one. -/
inductive ProgramError where
  /-- The name of a new entry is taken. -/
  | duplicateName (kind : Kind) (name : String)
  /-- There is no function of this id. -/
  | unknownFunction (id : FunctionId)
  /-- A body mentions an entry that is not there. -/
  | danglingReference (function : String) (reference : Reference)
  /-- A call passes the wrong number of arguments. -/
  | arityMismatch (caller callee : String) (expected found : Nat)
  deriving DecidableEq

namespace ProgramError

/-- The message of an error. -/
def message : ProgramError → String
  | duplicateName kind name => "duplicate " ++ kind.word ++ " name: " ++ name
  | unknownFunction id => "unknown function id " ++ toString id.slot
  | danglingReference function reference =>
    "`" ++ function ++ "` references missing " ++ reference.text
  | arityMismatch caller callee expected found =>
    "call from `" ++ caller ++ "` to `" ++ callee ++ "` passes " ++ toString found ++
      " arguments, expected " ++ toString expected

/-- The name under which an error is reported: the function at fault, or the
name or id that was refused. -/
def subject : ProgramError → String
  | duplicateName _ name => name
  | unknownFunction id => id.text
  | danglingReference function _ => function
  | arityMismatch caller _ _ _ => caller

end ProgramError

end Timebound
