import Timebound.Proofs.LoadDisorder
import Timebound.Proofs.PassReports

/-!
# What passes have left to do

The backlog of a program counts what passes can still do to it. Backlogs are compared item by
item, and the first difference decides (`Backlog.Less`): removing dead code lowers the number of
entries, expanding a call or unrolling a loop lowers the weight, putting a likely arm first the
number of branches to reorder, folding the size and grouping loads the number of loads out of
order. None of them raises what is compared before.

Weights need prices that pay for the bodies put in the places of calls (`Program.Affords`). There
are such prices since calls go down in the call order, and no pass makes a body too heavy for the
price of its function. So every pass that reports a change lowers the backlog (`Pass.Lowers`).
-/

namespace Timebound

/-- What can still be done. -/
structure Backlog where
  /-- Functions and globals. -/
  entries : Nat
  /-- What calls and loops can be expanded to. -/
  weight : Nat
  /-- Branches to reorder. -/
  unlikely : Nat
  /-- Statements and expression nodes. -/
  size : Nat
  /-- Pairs of loads out of order. -/
  disorder : Nat

namespace Backlog

/-- Less is left to do: the first item that differs is lower. -/
def Less (lower upper : Backlog) : Prop :=
  lower.entries < upper.entries ∨ lower.entries = upper.entries ∧
    (lower.weight < upper.weight ∨ lower.weight = upper.weight ∧
      (lower.unlikely < upper.unlikely ∨ lower.unlikely = upper.unlikely ∧
        (lower.size < upper.size ∨ lower.size = upper.size ∧ lower.disorder < upper.disorder)))

/-- Less than less is less. -/
theorem Less.trans {first second third : Backlog} (one : first.Less second)
    (two : second.Less third) : first.Less third := by
  unfold Less at one two ⊢
  omega

/-- Backlogs cannot get less for ever. -/
theorem less_wellFounded : WellFounded Less := by
  let items (backlog : Backlog) : Nat × Nat × Nat × Nat × Nat :=
    (backlog.entries, backlog.weight, backlog.unlikely, backlog.size, backlog.disorder)
  let lexicographic := Prod.lex Nat.lt_wfRel (Prod.lex Nat.lt_wfRel
    (Prod.lex Nat.lt_wfRel (Prod.lex Nat.lt_wfRel Nat.lt_wfRel)))
  refine Subrelation.wf ?_ (InvImage.wf items lexicographic.wf)
  rintro ⟨_, _, _, _, _⟩ ⟨_, _, _, _, _⟩ less
  rcases less with entries | ⟨rfl, weight | ⟨rfl, unlikely | ⟨rfl, size | ⟨rfl, disorder⟩⟩⟩⟩
  · exact .left _ _ entries
  · exact .right _ (.left _ _ weight)
  · exact .right _ (.right _ (.left _ _ unlikely))
  · exact .right _ (.right _ (.right _ (.left _ _ size)))
  · exact .right _ (.right _ (.right _ (.right _ disorder)))

end Backlog

/-! ## Redrafted bodies -/

/-- What can still be done in a block when calls have these prices. -/
def Block.backlog (price : FunctionId → Nat) (block : Block) : Backlog :=
  ⟨1, Block.weight price block, Block.reorderCount block, Block.size block, Block.disorder block⟩

/-- A block is as it was or has less left to do. -/
def Block.Eases (price : FunctionId → Nat) (new old : Block) : Prop :=
  new = old ∨ (Block.backlog price new).Less (Block.backlog price old)

/-- Easing twice is easing. -/
theorem Block.Eases.trans {price : FunctionId → Nat} {first second third : Block}
    (one : Block.Eases price first second) (two : Block.Eases price second third) :
    Block.Eases price first third := by
  rcases one with rfl | one
  · exact two
  · rcases two with rfl | two
    · exact .inr one
    · exact .inr (one.trans two)

/-- Expansions that are counted, and each of which takes one off the weight, ease a block. -/
theorem Block.Eases.of_counted {price : FunctionId → Nat} {new old : Block} {count : Nat}
    (lighter : Block.weight price new + count ≤ Block.weight price old)
    (alone : count = 0 → new = old) : Block.Eases price new old := by
  rcases Nat.eq_zero_or_pos count with none | some
  · exact .inl (alone none)
  · refine .inr (.inr ⟨rfl, .inl ?_⟩)
    exact Nat.lt_of_lt_of_le (Nat.lt_add_of_pos_right some) lighter

namespace Guided

section Redrafts

variable {price : FunctionId → Nat} (draft : Redraft)

/-- Expanding affordable calls eases a body. -/
theorem Redraft.inline_eases {find : FunctionId → Option Inlinable}
    (affordable : Affordable price find (Block.callShapes draft.body)) :
    Block.Eases price (draft.inline find).body draft.body :=
  .of_counted (Block.weight_inline draft.body draft.inlineSites affordable)
    (Block.inline_eq_self find draft.body draft.inlineSites)

/-- Unrolling loops eases a body. -/
theorem Redraft.unroll_eases (limit : Nat) (function : Function) :
    Block.Eases price (draft.unroll limit function).body draft.body :=
  .of_counted (Block.weight_unroll price limit (function.privateCounters draft.body) draft.body)
    (Block.unroll_eq_self _ _ draft.body)

/-- Putting likely arms first eases a body. -/
theorem Redraft.reorder_eases : Block.Eases price draft.reorder.body draft.body := by
  have ⟨weight, settled⟩ := Block.reorder_settles price draft.body
  change Block.Eases price (Block.reorder draft.body) draft.body
  rcases Nat.eq_zero_or_pos (Block.reorderCount draft.body) with none | some
  · exact .inl (Block.reorder_eq_self draft.body none)
  · refine .inr (.inr ⟨rfl, .inr ⟨weight, .inl ?_⟩⟩)
    exact Nat.lt_of_le_of_lt (Nat.le_of_eq settled) some

/-- Grouping loads eases a body. -/
theorem Redraft.group_eases : Block.Eases price draft.group.body draft.body := by
  have ⟨weight, count, size⟩ := Block.group_keeps price draft.body
  refine (Block.group_settles draft.body).imp_right fun closer => ?_
  exact .inr ⟨rfl, .inr ⟨weight, .inr ⟨count, .inr ⟨size, closer⟩⟩⟩⟩

/-- Redrafting eases a body in which calls are affordable. -/
theorem redraft_eases (tuning : Tuning) (analysis : Analysis) {program : Program}
    {id : FunctionId} {function : Function}
    (affordable : Affordable price (program.inlinable? id tuning.maxInlineSize
      (hotCallees tuning analysis id)) (Block.callShapes function.body)) :
    Block.Eases price (redraft tuning analysis program id function).body function.body := by
  -- Each rewrite is switched on or leaves the draft alone.
  have switched {on : Bool} {start next : Redraft}
      (eases : Block.Eases price next.body start.body) :
      Block.Eases price (if on then next else start).body start.body := by
    split
    · exact eases
    · exact .inl rfl
  unfold redraft
  refine .trans (switched (Redraft.group_eases _)) ?_
  refine .trans (switched (Redraft.reorder_eases _)) ?_
  refine .trans (switched (Redraft.unroll_eases _ _ _)) ?_
  exact switched (Redraft.inline_eases _ affordable)

end Redrafts

end Guided

/-! ## Prices -/

/-- The prices of calls in the body of a function: calls of itself cost nothing, since they are
never expanded. -/
def pricesIn (id : FunctionId) (price : FunctionId → Nat) (callee : FunctionId) : Nat :=
  if callee = id then 0 else price callee

/-- A callee is called with some number of arguments. -/
theorem Block.mem_callees_iff_shape {block : Block} {callee : FunctionId} :
    callee ∈ Block.callees block ↔ ∃ count, (callee, count) ∈ Block.callShapes block := by
  simp only [Block.mem_callees, Block.mem_callShapes]
  exact ⟨fun ⟨args, node⟩ => ⟨_, args, node, rfl⟩, fun ⟨_, args, node, _⟩ => ⟨args, node⟩⟩

namespace Program

/-- Prices pay for the bodies of the functions that outside code can get to, which are among the
listed ones. -/
structure Affords (program : Program) (listed : List FunctionId) (price : FunctionId → Nat) :
    Prop where
  /-- Roots are listed. -/
  roots : ∀ id function, program.function? id = some function → function.isRoot = true →
    id ∈ listed
  /-- Functions that are called by listed ones are listed. -/
  called : ∀ id function callee, id ∈ listed → program.function? id = some function →
    callee ∈ function.callees → callee ∈ listed
  /-- No body of a listed function is too heavy for the price of a call. -/
  paid : ∀ id function, id ∈ listed → program.function? id = some function →
    Block.weight (pricesIn id price) function.body ≤ price id

variable {program changed : Program} {listed : List FunctionId} {price : FunctionId → Nat}

/-- Functions that are finished one after the other have prices that pay for their bodies. -/
theorem Settled.exists_price {finished : List FunctionId} (settled : program.Settled finished) :
    ∃ price, ∀ id function, id ∈ finished → program.function? id = some function →
      Block.weight (pricesIn id price) function.body ≤ price id := by
  induction finished with
  | nil => exact ⟨fun _ => 0, fun _ _ absent => absurd absent List.not_mem_nil⟩
  | cons latest earlier ih =>
    obtain ⟨fresh, ⟨function, found, _⟩, settledEarlier⟩ := settled
    obtain ⟨price, paid⟩ := ih settledEarlier
    -- The bodies of earlier functions do not call the latest one, so its price is free.
    let weight := Block.weight (pricesIn latest price) function.body
    refine ⟨fun id => if id = latest then weight else price id, fun id owner there known => ?_⟩
    rcases List.mem_cons.mp there with rfl | older
    · cases found.symm.trans known
      dsimp only
      rw [if_pos rfl]
      refine Block.weight_mono _ fun shape _ => ?_
      simp only [pricesIn]
      split
      · exact Nat.le_refl _
      · exact Nat.le_refl _
    · have apart : id ≠ latest := fun same => fresh (same ▸ older)
      dsimp only
      rw [if_neg apart]
      refine Nat.le_trans (Block.weight_mono _ fun shape called => ?_) (paid id owner older known)
      have before := settledEarlier.mem_of_called older known
        (Block.mem_callees_iff_shape.mpr ⟨_, called⟩)
      have other : shape.1 ≠ latest := fun same => fresh (same ▸ before)
      simp only [pricesIn, if_neg other, Nat.le_refl]

/-- A program with a call order has prices that pay for its bodies. -/
theorem affords_of_callOrder {order : List FunctionId} (ordered : program.callOrder = .ok order) :
    ∃ price, program.Affords order price := by
  have ⟨settled, roots⟩ := callOrder_settled ordered
  obtain ⟨price, paid⟩ := settled.exists_price
  refine ⟨price, roots, fun id function callee there found called => ?_,
    fun id function there found => paid id function (List.mem_reverse.mpr there) found⟩
  exact List.mem_reverse.mp
    (settled.mem_of_called (List.mem_reverse.mpr there) found called)

namespace Affords

/-- Outside code gets to listed functions only. -/
theorem mem_of_reaches (affords : program.Affords listed price) {id : FunctionId}
    (reached : program.Reaches id) : id ∈ listed := by
  induction reached with
  | root found isRoot => exact affords.roots _ _ found isRoot
  | call _ found called _ ih => exact affords.called _ _ _ ih found called

/-- The calls of a listed function may be expanded at their prices. -/
theorem affordable (affords : program.Affords listed price) {id : FunctionId}
    {function : Function} (there : id ∈ listed) (found : program.function? id = some function)
    (maxSize : Nat) (wanted : OrderedSet FunctionId) :
    Affordable (pricesIn id price) (program.inlinable? id maxSize wanted)
      (Block.callShapes function.body) := by
  intro callee count target called allowed
  obtain ⟨known, apart, plain, whole⟩ := Program.inlinable?_eq_some allowed
  have reached := affords.called _ _ _ there found (Block.mem_callees_iff_shape.mpr ⟨_, called⟩)
  have body := Block.weight_splitEnd (pricesIn id price) target.function.body
  rw [whole] at body
  rw [Inlinable.weight, ← body, pricesIn, if_neg apart]
  -- The body does not call its own function, so there its calls are cheaper only for the caller.
  refine Nat.le_trans (Block.weight_mono _ fun shape inner => ?_)
    (affords.paid callee target.function reached known)
  have other : shape.1 ≠ callee := fun same =>
    plain (same ▸ Block.mem_callees_iff_shape.mpr ⟨_, inner⟩)
  simp only [pricesIn, if_neg other]
  split
  · exact Nat.zero_le _
  · exact Nat.le_refl _

/-- Prices still pay when functions are gone. -/
theorem of_fewer (affords : program.Affords listed price)
    (fewer : ∀ id function, changed.function? id = some function →
      program.function? id = some function) : changed.Affords listed price where
  roots id function found := affords.roots id function (fewer id function found)
  called id function callee there found :=
    affords.called id function callee there (fewer id function found)
  paid id function there found := affords.paid id function there (fewer id function found)

/-- Prices still pay after a change of a function that makes it no heavier and calls nothing
new. -/
theorem update (affords : program.Affords listed price) {id : FunctionId}
    {change : Function → Function} {function : Function}
    (found : program.function? id = some function)
    (updated : program.updateFunction? id change = some changed)
    (isRoot : (change function).isRoot = function.isRoot)
    (called : id ∈ listed → ∀ callee ∈ (change function).callees, callee ∈ listed)
    (weight : Block.weight (pricesIn id price) (change function).body ≤
      Block.weight (pricesIn id price) function.body) : changed.Affords listed price := by
  have lookup := function?_update found updated
  constructor
  · intro other owner there root
    rw [lookup] at there
    split at there
    · rename_i same
      cases there
      exact affords.roots other function (same ▸ found) (isRoot ▸ root)
    · exact affords.roots other owner there root
  · intro other owner callee inside there named
    rw [lookup] at there
    split at there
    · rename_i same
      cases there
      exact called (same ▸ inside) callee named
    · exact affords.called other owner callee inside there named
  · intro other owner inside there
    rw [lookup] at there
    split at there
    · rename_i same
      cases there
      subst same
      exact Nat.le_trans weight (affords.paid other function inside found)
    · exact affords.paid other owner inside there

end Affords

/-- What can still be done in a function of a program. -/
def functionBacklog (price : FunctionId → Nat) (id : FunctionId) (function : Function) : Backlog :=
  Block.backlog (pricesIn id price) function.body

/-- What can still be done in a program. -/
def backlog (price : FunctionId → Nat) (program : Program) : Backlog where
  entries := program.functions.total (fun _ _ => 1) + program.globals.total fun _ _ => 1
  weight := program.functions.total fun id function => (functionBacklog price id function).weight
  unlikely := program.functions.total fun id function =>
    (functionBacklog price id function).unlikely
  size := program.functions.total fun id function => (functionBacklog price id function).size
  disorder := program.functions.total fun id function =>
    (functionBacklog price id function).disorder

/-- A program in which less is left to do in one function has less left to do. -/
theorem backlog_update {id : FunctionId} {change : Function → Function} {function : Function}
    (found : program.function? id = some function)
    (updated : program.updateFunction? id change = some changed)
    (less : (functionBacklog price id (change function)).Less
      (functionBacklog price id function)) :
    (changed.backlog price).Less (program.backlog price) := by
  obtain ⟨functions, arena, rfl⟩ := Option.map_eq_some_iff.mp updated
  have entries := Arena.total_update found arena fun _ _ => 1
  have weight := Arena.total_update found arena fun id function =>
    (functionBacklog price id function).weight
  have unlikely := Arena.total_update found arena fun id function =>
    (functionBacklog price id function).unlikely
  have size := Arena.total_update found arena fun id function =>
    (functionBacklog price id function).size
  have disorder := Arena.total_update found arena fun id function =>
    (functionBacklog price id function).disorder
  have one (function : Function) : (functionBacklog price id function).entries = 1 := rfl
  simp only [Backlog.Less, backlog, one] at less ⊢
  omega

end Program

/-! ## Passes -/

/-- A pass that reports a change leaves less to do, at prices that pay for what it puts in the
places of calls, and keeps within these prices. -/
def Pass.Lowers (pass : Pass) : Prop :=
  ∀ {listed : List FunctionId} {price : FunctionId → Nat} {earlier : Nat} {program : Program}
    {analysis : Analysis} {outcome : Outcome}, program.Affords listed price →
      (∀ id ∈ analysis.criticalFunctions.keys, id ∈ listed) →
        (pass.transform earlier program analysis).2 = .ok outcome → outcome.modified = true →
          (pass.transform earlier program analysis).1.Affords listed price ∧
            ((pass.transform earlier program analysis).1.backlog price).Less
              (program.backlog price)

namespace DeadCode

/-- The entries that are left and those that were removed. -/
def Removal.entries (removal : Removal) : Nat :=
  removal.program.functions.total (fun _ _ => 1) + removal.program.globals.total (fun _ _ => 1) +
    (removal.functions + removal.globals)

/-- Removing a function counts it. -/
theorem Removal.entries_dropFunction (removal : Removal) (id : FunctionId) :
    (removal.dropFunction id).entries = removal.entries := by
  unfold Removal.dropFunction
  cases removed : removal.program.removeFunction? id with
  | none => rfl
  | some pair =>
    obtain ⟨⟨function, functions⟩, arena, rfl⟩ := Option.map_eq_some_iff.mp removed
    have one := Arena.total_remove arena fun _ _ => 1
    simp only [Removal.entries]
    omega

/-- Removing a global counts it. -/
theorem Removal.entries_dropGlobal (removal : Removal) (id : GlobalId) :
    (removal.dropGlobal id).entries = removal.entries := by
  unfold Removal.dropGlobal
  cases removed : removal.program.removeGlobal? id with
  | none => rfl
  | some pair =>
    obtain ⟨⟨global, globals⟩, arena, rfl⟩ := Option.map_eq_some_iff.mp removed
    have one := Arena.total_remove arena fun _ _ => 1
    simp only [Removal.entries]
    omega

/-- Dead code elimination leaves fewer entries. -/
theorem pass_lowers : pass.Lowers := by
  intro listed price earlier program analysis outcome affords _ reported modified
  cases reported
  have live := removeDead_livePart program
  have account := removeDead_keeps Removal.entries_dropFunction Removal.entries_dropGlobal program
  have removed : (removeDead program).functions + (removeDead program).globals ≠ 0 := by
    rw [Removal.outcome, Outcome.modified_count, Outcome.modified_count] at modified
    exact bne_iff_ne.mp modified
  refine ⟨affords.of_fewer fun id function found => ((live.function?_iff id function).mp found).1,
    .inl ?_⟩
  change (removeDead program).program.functions.total (fun _ _ => 1) +
    (removeDead program).program.globals.total (fun _ _ => 1) <
      program.functions.total (fun _ _ => 1) + program.globals.total fun _ _ => 1
  simp only [Removal.entries] at account
  omega

end DeadCode

namespace Folding

variable {listed : List FunctionId} {price : FunctionId → Nat}

/-- Folding a function stays within prices and changes nothing that is compared before the
size. -/
theorem Folds.keeps {before after : Program × Outcome} {id : FunctionId} {function : Function}
    (folds : Folds before after id function) (affords : before.1.Affords listed price) :
    after.1.Affords listed price ∧
      (after.1.backlog price).entries = (before.1.backlog price).entries ∧
      (after.1.backlog price).weight = (before.1.backlog price).weight ∧
      (after.1.backlog price).unlikely = (before.1.backlog price).unlikely := by
  have ⟨weight, count, calls⟩ :=
    Block.foldRounds_keeps (pricesIn id price) (Block.size function.body) function.body
  refine ⟨affords.update folds.found folds.updated rfl (fun there callee called => ?_)
    (Nat.le_of_eq weight), ?_⟩
  · obtain ⟨passed, shape⟩ := Block.mem_callees_iff_shape.mp called
    change (callee, passed) ∈ Block.callShapes (Block.foldRounds _ function.body).1 at shape
    rw [calls] at shape
    exact affords.called id function callee there folds.found
      (Block.mem_callees_iff_shape.mpr ⟨_, shape⟩)
  · obtain ⟨functions, arena, made⟩ := Option.map_eq_some_iff.mp folds.updated
    have entries := Arena.total_update folds.found arena fun _ _ => 1
    have weights := Arena.total_update folds.found arena fun id function =>
      (Program.functionBacklog price id function).weight
    have unlikely := Arena.total_update folds.found arena fun id function =>
      (Program.functionBacklog price id function).unlikely
    simp only [Program.functionBacklog, Block.backlog, Block.foldFully, weight, count]
      at weights unlikely
    rw [← made]
    simp only [Program.backlog, Program.functionBacklog, Block.backlog]
    omega

/-- Folding functions in a row stays within prices and changes nothing that is compared before
the size. -/
theorem foldl_foldFunction_keeps (ids : List FunctionId) (state : Program × Outcome)
    (affords : state.1.Affords listed price) :
    let last := ids.foldl foldFunction state
    last.1.Affords listed price ∧
      (last.1.backlog price).entries = (state.1.backlog price).entries ∧
      (last.1.backlog price).weight = (state.1.backlog price).weight ∧
      (last.1.backlog price).unlikely = (state.1.backlog price).unlikely := by
  induction ids generalizing state with
  | nil => exact ⟨affords, rfl, rfl, rfl⟩
  | cons id rest ih =>
    rcases foldFunction_cases state id with ⟨_, same⟩ | ⟨function, folds⟩
    · rw [List.foldl_cons, same]
      exact ih state affords
    · have ⟨kept, entries, weight, unlikely⟩ := folds.keeps affords
      have ⟨last, laterEntries, laterWeight, laterUnlikely⟩ := ih _ kept
      exact ⟨last, laterEntries.trans entries, laterWeight.trans weight,
        laterUnlikely.trans unlikely⟩

/-- Folding leaves a smaller program. -/
theorem pass_lowers : pass.Lowers := by
  intro listed price earlier program analysis outcome affords _ reported modified
  cases reported
  have some : ((candidates program).foldl foldFunction (program, {})).2.counter
      "constants_folded" ≠ 0 := by simpa using modified
  have none : ({} : Outcome).counter "constants_folded" = 0 := rfl
  have ⟨_, shrinks, _⟩ := foldl_foldFunction_size (candidates program) (program, {})
  have ⟨kept, entries, weight, unlikely⟩ :=
    foldl_foldFunction_keeps (candidates program) (program, {}) affords
  refine ⟨kept, .inr ⟨entries, .inr ⟨weight, .inr ⟨unlikely, .inl ?_⟩⟩⟩⟩
  change ((candidates program).foldl foldFunction (program, {})).1.size < program.size
  dsimp only at shrinks
  omega

end Folding

namespace Guided

variable {tuning : Tuning} {analysis : Analysis} {listed : List FunctionId}
  {price : FunctionId → Nat}

/-- A step that rewrites a listed function leaves less to do and stays within prices. -/
theorem Rewrites.lowers {before after : Progress} {id : FunctionId} {function : Function}
    {change : Function → Function}
    (rewrites : Rewrites tuning analysis before after id function change)
    (affords : before.program.Affords listed price) (there : id ∈ listed) :
    after.program.Affords listed price ∧
      (after.program.backlog price).Less (before.program.backlog price) := by
  have eases := redraft_eases tuning analysis (affords.affordable there rewrites.found
    tuning.maxInlineSize (hotCallees tuning analysis id))
  rw [← rewrites.body] at eases
  have less := eases.resolve_left rewrites.differs
  have lighter : Block.weight (pricesIn id price) (change function).body ≤
      Block.weight (pricesIn id price) function.body := by
    simp only [Backlog.Less, Block.backlog] at less
    omega
  refine ⟨affords.update rewrites.found rewrites.updated rewrites.isRoot (fun _ callee called => ?_)
    lighter, Program.backlog_update rewrites.found rewrites.updated less⟩
  -- A call of the new body stands in the old one or in the body of a callee.
  obtain ⟨count, shape⟩ := Block.mem_callees_iff_shape.mp called
  rw [rewrites.body] at shape
  obtain ⟨source, owner, known, inner, place⟩ :=
    origin_of_redraft tuning analysis rewrites.found shape
  have reached : source ∈ listed := by
    rcases place with rfl | ⟨_, direct⟩
    · exact there
    · exact affords.called id function source there rewrites.found direct
  exact affords.called source owner callee reached known
    (Block.mem_callees_iff_shape.mpr ⟨_, inner⟩)

/-- A change that is in progress stays within prices, and it has changed nothing or left less
to do. -/
structure Eased (listed : List FunctionId) (price : FunctionId → Nat) (program : Program)
    (progress : Progress) : Prop where
  /-- Calls stay within prices. -/
  affords : progress.program.Affords listed price
  /-- Nothing is changed, or less is left to do. -/
  lowers : progress = { program } ∨
    (progress.program.backlog price).Less (program.backlog price)

/-- A step on a listed function stays within prices and changes nothing or leaves less to do. -/
theorem step_eased {program : Program} {progress : Progress}
    (eased : Eased listed price program progress) {id : FunctionId} (there : id ∈ listed) :
    Eased listed price program (step tuning analysis progress id) := by
  rcases step_cases tuning analysis progress id with idle | ⟨function, change, rewrites⟩
  · rw [idle]
    exact eased
  · have ⟨kept, less⟩ := rewrites.lowers eased.affords there
    refine ⟨kept, .inr ?_⟩
    rcases eased.lowers with rfl | lower
    · exact less
    · exact less.trans lower

/-- The guided pass leaves less to do. -/
theorem pass_lowers (tuning : Tuning) : (pass tuning).Lowers := by
  intro listed price earlier program analysis outcome affords critical reported modified
  have ⟨kept, result⟩ : Eased listed price program (changeAll tuning analysis program) :=
    changeAll_induct ⟨affords, .inl rfl⟩ fun _ id queued _ eased =>
      step_eased eased (critical id queued)
  have touched := (transform_reported reported).1.mp modified
  have made : ((pass tuning).transform earlier program analysis).1 =
      (changeAll tuning analysis program).program := transform_program tuning analysis program
  rw [made]
  refine ⟨kept, result.resolve_left fun idle => touched ?_⟩
  exact congrArg Progress.touched idle

end Guided

/-- All passes of the standard optimizer leave less to do when they report a change. -/
theorem standard_lowers (tuning : Tuning) :
    ∀ pass ∈ [DeadCode.pass, Folding.pass, Guided.pass tuning], pass.Lowers := by
  intro pass there
  simp only [List.mem_cons, List.not_mem_nil, or_false] at there
  rcases there with rfl | rfl | rfl
  · exact DeadCode.pass_lowers
  · exact Folding.pass_lowers
  · exact Guided.pass_lowers tuning

end Timebound
