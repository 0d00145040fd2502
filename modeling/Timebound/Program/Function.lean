import Timebound.Program.Arena
import Timebound.Program.Stmt

/-!
# Functions and globals

The two kinds of program entries. Roots are the functions that outside code can
enter: the exported ones and the entry point.
-/

namespace Timebound

/-- A typed parameter of a function. -/
structure Parameter where
  /-- The name of the parameter in the body. -/
  name : String
  /-- The declared type. -/
  type : ScalarType
  deriving DecidableEq

/-- A function of a program. -/
structure Function where
  /-- The name, used by the index, by listings and by minted local names. -/
  name : String
  /-- The parameters, in order. -/
  params : List Parameter := []
  /-- The type of the returned value, if there is one. -/
  result : Option ScalarType := none
  /-- The statements. -/
  body : Block := []
  /-- Whether outside code may call the function. -/
  exported : Bool := false
  /-- The largest number of activations per outermost call of a function that
  calls itself. -/
  recursionLimit : Option Nat := none
  /-- The number that the next call site expanded in the body gets, of 32 bits. -/
  inlineSites : Nat := 0
  deriving DecidableEq

instance : Named Function := ⟨Function.name⟩

/-- The name of the entry point. -/
def entryPoint : String := "main"

namespace Function

/-- The number of statements and expression nodes of the body. -/
def size (function : Function) : Nat := Block.size function.body

/-- The functions called, each once, in the order of their first calls. -/
def callees (function : Function) : List FunctionId := Block.callees function.body

/-- The globals mentioned, each once, in the order of first mention. -/
def referencedGlobals (function : Function) : List GlobalId :=
  Block.referencedGlobals function.body

/-- Whether outside code can enter the function. -/
def isRoot (function : Function) : Bool := function.exported || function.name == entryPoint

/-- Whether the body calls the function of this id. -/
def calls (function : Function) (id : FunctionId) : Bool := function.callees.contains id

end Function

/-- A global variable of a program. -/
structure Global where
  /-- The name, used by the index and by listings. -/
  name : String
  /-- The type of each element. -/
  type : ScalarType
  /-- The number of elements. -/
  length : Nat := 1
  /-- The initial value of the elements. -/
  init : Literal := .ofInt type 0
  /-- Whether outside code may access the global. -/
  exported : Bool := false
  deriving DecidableEq

instance : Named Global := ⟨Global.name⟩

end Timebound
