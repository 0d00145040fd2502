import Timebound.Sorting
import Timebound.Timing.Cost

/-!
# Load grouping

Loads at literal indices into new locals do not depend on each other, so a run of
them that binds distinct names can be sorted by global and index. That is done
when more loads then directly follow the load of the element before them, which
makes them cheaper.
-/

namespace Timebound

/-! ## Runs of loads -/

/-- Whether a statement may join a run of loads: it is a load at a literal index
that binds a name the run does not bind yet. -/
def Stmt.joinsRun (run : Block) (s : Stmt) : Bool :=
  s.literalLoad?.isSome && !(run.any fun member => member.boundName? == s.boundName?)

/-- Cut a block into longest runs of loads, starting with a run in progress. A
statement that cannot be in any run stands alone. -/
def Block.runsFrom (run : Block) : Block → List Block
  | [] => [run]
  | s :: rest =>
    if s.joinsRun run then runsFrom (run ++ [s]) rest
    else if s.joinsRun [] then run :: runsFrom [s] rest
    else run :: [s] :: runsFrom [] rest

/-- The number of statements of a run that load the element after the one before them. -/
def Block.sequentialPairs (run : Block) : Nat :=
  (run.zip run.tail).countP fun pair => pair.1.loadsNext pair.2

/-- Whether one load comes no later than another: by global, then by index. -/
def Stmt.loadsNoLater (first second : Stmt) : Bool :=
  match first.literalLoad?, second.literalLoad? with
  | some (g, k), some (h, l) =>
    decide (g.slot < h.slot) || (g == h && decide (k ≤ l))
  | none, _ => true
  | some _, none => false

/-- A run sorted by global and index. -/
def Block.sortedRun (run : Block) : Block := stableSort Stmt.loadsNoLater run

/-- Whether sorting a run makes more of its loads sequential. -/
def Block.gainsFromSorting (run : Block) : Bool :=
  sequentialPairs run < sequentialPairs (sortedRun run)

/-- A run in the better order. -/
def Block.arrangeRun (run : Block) : Block := if gainsFromSorting run then sortedRun run else run

/-- Cutting a block into runs loses nothing. -/
theorem Block.flatten_runsFrom (run block : Block) :
    (runsFrom run block).flatten = run ++ block := by
  induction block generalizing run with
  | nil => simp [runsFrom]
  | cons s rest ih =>
    unfold runsFrom
    split
    · simp [ih]
    · split <;> simp [ih]

/-- A run keeps its statements. -/
theorem Block.arrangeRun_perm (run : Block) : (arrangeRun run).Perm run := by
  unfold arrangeRun
  split
  · exact stableSort_perm _ run
  · exact .refl run

/-- Runs that follow each other keep their statements. -/
theorem Block.arrangeRuns_perm (runs : List Block) :
    (runs.flatMap arrangeRun).Perm runs.flatten := by
  induction runs with
  | nil => exact .refl _
  | cons run rest ih => simpa using (arrangeRun_perm run).append ih

/-! ## Blocks -/

/-- Arrange the runs of a block whose nested blocks are done. -/
def Block.arrange (block : Block) : Block := (runsFrom [] block).flatMap arrangeRun

/-- Arranging the runs of a block keeps its statements. -/
theorem Block.arrange_perm (block : Block) : (arrange block).Perm block := by
  have runs := arrangeRuns_perm (runsFrom [] block)
  rwa [flatten_runsFrom, List.nil_append] at runs

/-- The number of loads in runs that are rearranged. -/
def Block.arrangeCount (block : Block) : Nat :=
  (runsFrom [] block).foldr
    (fun run rest => (if gainsFromSorting run then run.length else 0) + rest) 0

mutual

/-- Group the loads in the nested blocks of a statement. -/
def Stmt.group : Stmt → Stmt
  | .branch cond thenBody elseBody likelihood =>
    .branch cond (Block.arrange (Block.groupNested thenBody))
      (Block.arrange (Block.groupNested elseBody)) likelihood
  | .loop counter bound condition body =>
    .loop counter bound condition (Block.arrange (Block.groupNested body))
  | .bind name type value => .bind name type value
  | .assign name value => .assign name value
  | .setGlobal id value => .setGlobal id value
  | .store id index value => .store id index value
  | .emit channel value => .emit channel value
  | .eval value => .eval value
  | .ret value => .ret value

/-- Group the loads in the blocks nested in a block. -/
def Block.groupNested : List Stmt → List Stmt
  | [] => []
  | s :: rest => s.group :: Block.groupNested rest

end

/-- Group the loads of a block and of all blocks nested in it. -/
def Block.group (block : Block) : Block := arrange (groupNested block)

mutual

/-- The number of loads regrouped in the nested blocks of a statement. -/
def Stmt.groupCount : Stmt → Nat
  | .branch _ thenBody elseBody _ =>
    Block.nestedGroupCount thenBody + Block.arrangeCount (Block.groupNested thenBody) +
      (Block.nestedGroupCount elseBody + Block.arrangeCount (Block.groupNested elseBody))
  | .loop _ _ _ body =>
    Block.nestedGroupCount body + Block.arrangeCount (Block.groupNested body)
  | .bind .. | .assign .. | .setGlobal .. | .store .. | .emit .. | .eval _ | .ret _ => 0

/-- The number of loads regrouped in the blocks nested in a block. -/
def Block.nestedGroupCount : List Stmt → Nat
  | [] => 0
  | s :: rest => s.groupCount + Block.nestedGroupCount rest

end

/-- The number of loads regrouped in a block and in all blocks nested in it. -/
def Block.groupCount (block : Block) : Nat :=
  nestedGroupCount block + arrangeCount (groupNested block)

end Timebound
