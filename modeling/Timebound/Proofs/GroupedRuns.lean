import Timebound.Proofs.GroupedCycles
import Timebound.Proofs.LocalNames

/-!
# Grouped loads do what the loads did

Loads at literal indices that bind distinct names can stand in any order: they read the world and
leave it alone, none reads what another binds, and each is out of range for the same reason. A
block that is regrouped (`Block.Regrouped`) has its statements in their places, except that the
loads of a run with distinct names may change places among each other, in nested blocks as well.
Such a block has the same meaning, whatever calls do (`Block.Regrouped.run_eq`), and grouping
regroups (`Block.regrouped_group`).
-/

namespace Timebound

/-! ## Reads -/

/-- The element of a global at an index, where there is one. -/
def World.element? (world : World) (id : GlobalId) (index : Int) : Option Literal :=
  if index < 0 then none else (world.globals id)[index.toNat]?

section Reads

variable {α : Type} {world : World} {id other : GlobalId} {index place : Int}

/-- Reading an element looks it up in the present world. -/
theorem Run.element_bind (next : Literal → Run α) :
    (Run.element id index >>= next).run.run world =
      (Run.need .outOfRange (world.element? id index) >>= next).run.run world := rfl

/-- Reading an element that is there goes on with it in the same world. -/
theorem Run.element_bind_some {value : Literal} (held : world.element? id index = some value)
    (next : Literal → Run α) :
    (Run.element id index >>= next).run.run world = (next value).run.run world := by
  rw [Run.element_bind, held]
  rfl

/-- Reading an element that is not there stops the run in the same world. -/
theorem Run.element_bind_none (missing : world.element? id index = none)
    (next : Literal → Run α) :
    (Run.element id index >>= next).run.run world = (.error .outOfRange, world) := by
  rw [Run.element_bind, missing]
  rfl

/-- Two elements can be read in either order. -/
theorem Run.element_comm (next : Literal → Literal → Run α) :
    (do let a ← Run.element id index; let b ← Run.element other place; next a b) =
      (do let b ← Run.element other place; let a ← Run.element id index; next a b) := by
  refine ExceptT.ext (StateT.ext fun world => ?_)
  cases first : world.element? id index with
  | none =>
    cases second : world.element? other place with
    | none => rw [Run.element_bind_none first, Run.element_bind_none second]
    | some b =>
      rw [Run.element_bind_none first, Run.element_bind_some second, Run.element_bind_none first]
  | some a =>
    cases second : world.element? other place with
    | none =>
      rw [Run.element_bind_some first, Run.element_bind_none second, Run.element_bind_none second]
    | some b =>
      rw [Run.element_bind_some first, Run.element_bind_some second, Run.element_bind_some second,
        Run.element_bind_some first]

end Reads

/-! ## Runs of loads -/

/-- Loads at literal indices that bind distinct names. -/
structure Block.IsRun (run : Block) : Prop where
  /-- Every statement is a load at a literal index. -/
  loads : ∀ s ∈ run, s.literalLoad?.isSome = true
  /-- No name is bound twice. -/
  distinct : (run.map Stmt.boundName?).Nodup

/-- A statement that loads at a literal index, spelled out. -/
theorem Stmt.exists_of_literalLoad {s : Stmt} (loads : s.literalLoad?.isSome = true) :
    ∃ name type id index, s = .bind name type (.load id (.lit index)) := by
  unfold literalLoad? at loads
  split at loads
  · exact ⟨_, _, _, _, rfl⟩
  · cases loads

namespace Block

section IsRun

variable {run moved : Block} {s : Stmt}

/-- Nothing is a run. -/
theorem isRun_nil : IsRun [] := ⟨by simp, by simp⟩

/-- A load is a run. -/
theorem isRun_singleton (loads : s.literalLoad?.isSome = true) : IsRun [s] :=
  ⟨by simpa using loads, by simp⟩

/-- A run stays one when a statement joins it. -/
theorem IsRun.join (isRun : IsRun run) (joins : s.joinsRun run = true) : IsRun (run ++ [s]) := by
  rw [Stmt.joinsRun, Bool.and_eq_true, Bool.not_eq_true', List.any_eq_false] at joins
  obtain ⟨loads, fresh⟩ := joins
  refine ⟨fun t listed => ?_, ?_⟩
  · rcases List.mem_append.mp listed with before | last
    · exact isRun.loads t before
    · exact List.mem_singleton.mp last ▸ loads
  · rw [List.map_append, List.map_singleton]
    refine List.nodup_append.mpr ⟨isRun.distinct, by simp, fun name bound other last same => ?_⟩
    obtain ⟨t, listed, rfl⟩ := List.mem_map.mp bound
    exact fresh t listed (beq_iff_eq.mpr (same.trans (List.mem_singleton.mp last)))

/-- A run stays one in any order. -/
theorem IsRun.perm (isRun : IsRun run) (same : run.Perm moved) : IsRun moved where
  loads s listed := isRun.loads s (same.mem_iff.mpr listed)
  distinct := (same.map _).nodup_iff.mp isRun.distinct

/-- Some statements of a run are a run. -/
theorem IsRun.sublist (isRun : IsRun run) (part : moved.Sublist run) : IsRun moved where
  loads s listed := isRun.loads s (part.subset listed)
  distinct := (part.map _).nodup isRun.distinct

end IsRun

/-! ## Cuts between runs -/

section Cuts

variable {run rest : Block} {s : Stmt}

/-- A statement joins the run in progress. -/
theorem runsFrom_join (joins : s.joinsRun run = true) :
    runsFrom run (s :: rest) = runsFrom (run ++ [s]) rest := by
  rw [runsFrom, if_pos joins]

/-- A load that repeats a name of the run in progress starts another run. -/
theorem runsFrom_repeat (loads : s.literalLoad?.isSome = true)
    (repeats : s.joinsRun run = false) :
    runsFrom run (s :: rest) = run :: runsFrom [s] rest := by
  have starts : s.joinsRun [] = true := by simp [Stmt.joinsRun, loads]
  rw [runsFrom, if_neg (Bool.eq_false_iff.mp repeats), if_pos starts]

/-- A statement that is no load ends the run in progress and stands alone. -/
theorem runsFrom_other (loadless : s.literalLoad? = none) :
    runsFrom run (s :: rest) = run :: [s] :: runsFrom [] rest := by
  have never (run : Block) : ¬ s.joinsRun run = true := by simp [Stmt.joinsRun, loadless]
  rw [runsFrom, if_neg (never run), if_neg (never [])]

/-- There is nothing to arrange in a single statement. -/
theorem arrangeRun_singleton (s : Stmt) : arrangeRun [s] = [s] :=
  List.perm_singleton.mp (arrangeRun_perm [s])

end Cuts

/-! ## Meaning -/

section Runs

variable (setting : Setting)

/-- A load reads its element and binds it for the rest of the block. -/
theorem run_load (name : String) (type : ScalarType) (id : GlobalId) (index : Literal)
    (rest : Block) (locals : Locals) :
    Block.run setting (.bind name type (.load id (.lit index)) :: rest) locals =
      Run.element id index.value >>= fun value =>
        Flow.put name (locals name) <$>
          Block.run setting rest (Function.update locals name (some value)) := by
  simp [Block.run, Stmt.run, Expr.value, Expr.eval, Run.need, Stmt.boundName?]

/-- Two loads that bind distinct names can change places. -/
theorem run_swap {first second : Stmt} (isRun : IsRun [first, second]) (rest : Block) :
    Block.run setting (first :: second :: rest) = Block.run setting (second :: first :: rest) := by
  obtain ⟨name, type, id, index, rfl⟩ := Stmt.exists_of_literalLoad (isRun.loads first (by simp))
  obtain ⟨other, otherType, place, position, rfl⟩ :=
    Stmt.exists_of_literalLoad (isRun.loads second (by simp))
  have apart : name ≠ other := by simpa [Stmt.boundName?] using isRun.distinct
  funext locals
  simp only [run_load, map_bind]
  rw [Run.element_comm]
  congr 1
  funext held
  congr 1
  funext value
  -- Each load gives up its own name only, so what both leave does not depend on the order.
  simp only [Functor.map_map, Function.update_of_ne apart, Function.update_of_ne apart.symm,
    Function.update_comm apart, Flow.put_comm apart]

/-- A run can stand in any order in front of the rest of a block. -/
theorem run_perm {run moved : Block} (isRun : IsRun run) (same : run.Perm moved) (rest : Block) :
    Block.run setting (run ++ rest) = Block.run setting (moved ++ rest) := by
  induction same with
  | nil => rfl
  | cons s _ ih =>
    funext locals
    simp only [List.cons_append, Block.run, ih (isRun.sublist (List.sublist_cons_self _ _))]
  | swap first second others =>
    have pair : IsRun [second, first] := isRun.sublist (by simp)
    exact run_swap setting pair (others ++ rest)
  | trans one _ ih again => exact (ih isRun).trans (again (isRun.perm one))

/-- Blocks with the same meaning have it behind the same statements. -/
theorem run_append_congr (start : Block) {rest other : Block}
    (same : Block.run setting rest = Block.run setting other) :
    Block.run setting (start ++ rest) = Block.run setting (start ++ other) := by
  induction start with
  | nil => exact same
  | cons s start ih =>
    funext locals
    simp only [List.cons_append, Block.run, ih]

end Runs

end Block

/-! ## Regrouped blocks -/

mutual

/-- A statement whose nested blocks are regrouped. -/
inductive Stmt.Regrouped : Stmt → Stmt → Prop where
  /-- Nothing changes. -/
  | same (s : Stmt) : Stmt.Regrouped s s
  /-- Both arms are regrouped. -/
  | branch (cond : Expr) {thenBody newThen elseBody newElse : List Stmt}
      (likelihood : Option Nat) (first : Block.Regrouped thenBody newThen)
      (second : Block.Regrouped elseBody newElse) :
      Stmt.Regrouped (.branch cond thenBody elseBody likelihood)
        (.branch cond newThen newElse likelihood)
  /-- The body is regrouped. -/
  | loop (counter : Option String) (bound : TripBound) (condition : Option Expr)
      {body newBody : List Stmt} (inner : Block.Regrouped body newBody) :
      Stmt.Regrouped (.loop counter bound condition body) (.loop counter bound condition newBody)

/-- A block whose statements stand in their places, except for the loads of a run, which change
places among each other. Nested blocks are regrouped too. -/
inductive Block.Regrouped : List Stmt → List Stmt → Prop where
  /-- The block ends. -/
  | nil : Block.Regrouped [] []
  /-- A statement stays where it is. -/
  | cons {s changed : Stmt} {rest others : List Stmt} (first : Stmt.Regrouped s changed)
      (behind : Block.Regrouped rest others) : Block.Regrouped (s :: rest) (changed :: others)
  /-- The loads of a run change places. -/
  | run {run moved rest others : List Stmt} (isRun : Block.IsRun run) (same : run.Perm moved)
      (behind : Block.Regrouped rest others) : Block.Regrouped (run ++ rest) (moved ++ others)

end

section Meaning

variable (setting : Setting)

/-- Regrouping keeps the name that a statement binds. -/
theorem Stmt.Regrouped.boundName?_eq {s changed : Stmt} (regrouped : s.Regrouped changed) :
    changed.boundName? = s.boundName? := by
  cases regrouped <;> rfl

mutual

/-- A regrouped statement does what the statement does. -/
theorem Stmt.Regrouped.run_eq : ∀ {s changed : Stmt}, s.Regrouped changed →
    changed.run setting = s.run setting
  | _, _, .same _ => rfl
  | _, _, .branch _ _ first second => by
    have sameThen := Block.Regrouped.run_eq first
    have sameElse := Block.Regrouped.run_eq second
    funext locals
    simp only [Stmt.run, sameThen, sameElse]
  | _, _, .loop _ _ _ inner => by
    have sameBody := Block.Regrouped.run_eq inner
    funext locals
    simp only [Stmt.run, sameBody]

/-- A regrouped block does what the block does. -/
theorem Block.Regrouped.run_eq : ∀ {block changed : List Stmt}, Block.Regrouped block changed →
    Block.run setting changed = Block.run setting block
  | _, _, .nil => rfl
  | _, _, .cons first behind => by
    have one := Stmt.Regrouped.run_eq first
    have others := Block.Regrouped.run_eq behind
    funext locals
    simp only [Block.run, one, others, first.boundName?_eq]
  | _, _, .run isRun same behind => by
    have others := Block.Regrouped.run_eq behind
    rw [Block.run_append_congr setting _ others]
    exact (Block.run_perm setting isRun same _).symm

end

end Meaning

/-! ## Grouping -/

/-- A load has no nested blocks to group. -/
theorem Stmt.group_of_literalLoad {s : Stmt} (loads : s.literalLoad?.isSome = true) :
    s.group = s := by
  obtain ⟨name, type, id, index, rfl⟩ := Stmt.exists_of_literalLoad loads
  rfl

/-- Arranging the runs of a block regroups it, when its statements are regrouped. -/
theorem Block.regrouped_runsFrom {block : Block} (nested : ∀ s ∈ block, s.Regrouped s.group) :
    ∀ {run : Block}, Block.IsRun run → Block.Regrouped (run ++ block)
      ((Block.runsFrom run (block.map Stmt.group)).flatMap Block.arrangeRun) := by
  have arranged (run : Block) : run.Perm (Block.arrangeRun run) := (Block.arrangeRun_perm run).symm
  induction block with
  | nil =>
    intro run isRun
    simpa [Block.runsFrom] using Block.Regrouped.run isRun (arranged run) .nil
  | cons s rest ih =>
    intro run isRun
    obtain ⟨first, others⟩ := List.forall_mem_cons.mp nested
    rw [List.map_cons]
    by_cases loads : s.literalLoad?.isSome = true
    · rw [Stmt.group_of_literalLoad loads]
      by_cases joins : s.joinsRun run = true
      · rw [Block.runsFrom_join joins, List.append_cons]
        exact ih others (isRun.join joins)
      · rw [Block.runsFrom_repeat loads (Bool.eq_false_iff.mpr joins), List.flatMap_cons]
        exact .run isRun (arranged run) (ih others (Block.isRun_singleton loads))
    · have loadless : s.group.literalLoad? = none := by
        rw [Stmt.inside_group.loads]
        simpa using loads
      rw [Block.runsFrom_other loadless, List.flatMap_cons, List.flatMap_cons,
        Block.arrangeRun_singleton]
      exact .run isRun (arranged run) (.cons first (ih others Block.isRun_nil))

/-- Grouping the loads of a block regroups it, when its statements are regrouped. -/
theorem Block.regrouped_of_nested {block : Block} (nested : ∀ s ∈ block, s.Regrouped s.group) :
    Block.Regrouped block (Block.arrange (Block.groupNested block)) := by
  rw [Block.groupNested_eq_map]
  exact Block.regrouped_runsFrom nested Block.isRun_nil

mutual

/-- Grouping the loads of nested blocks regroups a statement. -/
theorem Stmt.regrouped_group : ∀ s : Stmt, s.Regrouped s.group
  | .bind .. | .assign .. | .setGlobal .. | .store .. | .emit .. | .eval _ | .ret _ => .same _
  | .branch cond thenBody elseBody likelihood =>
    .branch cond likelihood (Block.regrouped_of_nested (Block.regrouped_groupNested thenBody))
      (Block.regrouped_of_nested (Block.regrouped_groupNested elseBody))
  | .loop counter bound condition body =>
    .loop counter bound condition (Block.regrouped_of_nested (Block.regrouped_groupNested body))

/-- Grouping the loads of nested blocks regroups every statement of a block. -/
theorem Block.regrouped_groupNested : ∀ block : List Stmt, ∀ s ∈ block, s.Regrouped s.group
  | [] => List.forall_mem_nil _
  | s :: rest =>
    List.forall_mem_cons.mpr ⟨Stmt.regrouped_group s, Block.regrouped_groupNested rest⟩

end

/-- Grouping the loads of a block and of all blocks nested in it regroups the block. -/
theorem Block.regrouped_group (block : Block) : Block.Regrouped block (Block.group block) :=
  Block.regrouped_of_nested (Block.regrouped_groupNested block)

end Timebound
