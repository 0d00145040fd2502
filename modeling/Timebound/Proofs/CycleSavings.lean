import Timebound.Timing.Cost

/-!
# Costs that are lowered

A rewriting is paid off when every cost that existed before exists afterwards and is no
larger (`Lowers`). Sums, products and maxima of lowered costs are lowered, and the limit
of cycle counts cannot be hit by less. In a block the cost of a statement also depends on the
one before it, since a load may be sequential, so blocks are compared behind any statement
(`Block.Lowers`): a statement may make way for a cheaper one that loads the same element, and
one that loads nothing may make way for any cheaper statements.
-/

namespace Timebound

/-! ## Lowered costs -/

/-- Whether a cost that exists before exists afterwards and is no larger. -/
def Lowers (old new : Except Cause Nat) : Prop :=
  ∀ cost, old = .ok cost → ∃ less, less ≤ cost ∧ new = .ok less

namespace Lowers

/-- A cost that stays is lowered. -/
theorem refl (cost : Except Cause Nat) : Lowers cost cost :=
  fun price known => ⟨price, Nat.le_refl price, known⟩

/-- Lowering twice is lowering. -/
theorem trans {first second third : Except Cause Nat} (one : Lowers first second)
    (two : Lowers second third) : Lowers first third := by
  intro cost known
  obtain ⟨middle, upper, reached⟩ := one cost known
  obtain ⟨less, lower, done⟩ := two middle reached
  exact ⟨less, by omega, done⟩

/-- A smaller count stays below the limit. -/
theorem checked {old new : Nat} (smaller : new ≤ old) :
    Lowers (checkedCycles old) (checkedCycles new) := by
  intro cost known
  obtain ⟨rfl, inside⟩ := checkedCycles_eq_ok_iff.mp known
  exact ⟨new, smaller, checkedCycles_eq_ok_iff.mpr ⟨rfl, by omega⟩⟩

/-- What is computed from a lowered cost is lowered, if it is for smaller costs. -/
theorem bind {old new : Except Cause Nat} {next other : Nat → Except Cause Nat}
    (first : Lowers old new)
    (rest : ∀ cost less, less ≤ cost → Lowers (next cost) (other less)) :
    Lowers (old >>= next) (new >>= other) := by
  intro total known
  obtain ⟨cost, done, later⟩ := bind_eq_ok_iff.mp known
  obtain ⟨less, smaller, redone⟩ := first cost done
  obtain ⟨sum, lower, finished⟩ := rest cost less smaller total later
  exact ⟨sum, lower, bind_eq_ok_iff.mpr ⟨less, redone, finished⟩⟩

end Lowers

/-! ## Costs in a row -/

section Rows

variable {callee : FunctionId → Except Cause Nat}

/-- Passing arguments adds to a running total. -/
theorem Args.le_cycles (args : List Expr) {start total : Nat}
    (known : Args.cycles callee start args = .ok total) : start ≤ total := by
  induction args generalizing start with
  | nil =>
    cases known
    exact Nat.le_refl _
  | cons arg args ih =>
    simp only [Args.cycles, bind_eq_ok_iff, checkedCycles_eq_ok_iff] at known
    obtain ⟨cost, _, _, ⟨rfl, _⟩, later⟩ := known
    exact Nat.le_trans (Nat.le_add_right _ _) (ih later)

/-- Whether a load is sequential is decided by the places of the loads. -/
theorem Stmt.any_loadsNext (previous : Option Stmt) (s : Stmt) :
    previous.any (·.loadsNext s) = (previous.bind literalLoad?).any fun place =>
      decide (s.literalLoad? = some (place.1, place.2 + 1)) := by
  cases previous with
  | none => rfl
  | some first =>
    simp only [Option.any_some, Option.bind_some, loadsNext]
    cases first.literalLoad? <;> cases s.literalLoad? <;> simp
    grind

/-- What a statement saves depends on what it and the one before it load. -/
theorem Stmt.discountAfter_congr {previous other : Option Stmt} {s t : Stmt}
    (before : previous.bind literalLoad? = other.bind literalLoad?)
    (same : s.literalLoad? = t.literalLoad?) :
    s.discountAfter previous = t.discountAfter other := by
  rw [discountAfter, discountAfter, any_loadsNext, any_loadsNext, before, same]

/-- A statement that follows none saves nothing. -/
theorem Stmt.discountAfter_none (s : Stmt) : s.discountAfter none = 0 := rfl

/-- A statement that loads nothing saves nothing. -/
theorem Stmt.discountAfter_of_loadless {s : Stmt} (loadless : s.literalLoad? = none)
    (previous : Option Stmt) : s.discountAfter previous = 0 := by
  cases previous <;> simp [discountAfter, loadsNext, loadless]

/-- The cost of statements behind another one, without regard to the limit. -/
inductive Block.Costs (callee : FunctionId → Except Cause Nat) : Option Stmt → Block → Nat → Prop
    where
  /-- No statement costs nothing. -/
  | nil (previous : Option Stmt) : Costs callee previous [] 0
  /-- A statement costs what it does not save, and the others stand behind it. -/
  | cons {previous : Option Stmt} {s : Stmt} {rest : Block} {cost others : Nat}
      (first : s.cycles callee = .ok cost) (behind : Costs callee (some s) rest others) :
      Costs callee previous (s :: rest) (cost - s.discountAfter previous + others)

/-- The cost of a block is a sum that stays below the limit. -/
theorem Block.cyclesFrom_eq_ok_iff {previous : Option Stmt} {block : Block} {start total : Nat}
    (room : start < cycleLimit) :
    Block.cyclesFrom callee previous start block = .ok total ↔
      ∃ added, Block.Costs callee previous block added ∧ start + added = total ∧
        total < cycleLimit := by
  induction block generalizing previous start with
  | nil =>
    constructor
    · intro done
      cases done
      exact ⟨0, .nil previous, rfl, room⟩
    · rintro ⟨_, ⟨⟩, rfl, _⟩
      rfl
  | cons s rest ih =>
    simp only [Block.cyclesFrom, bind_eq_ok_iff, checkedCycles_eq_ok_iff]
    constructor
    · rintro ⟨cost, first, _, ⟨rfl, inside⟩, others⟩
      obtain ⟨added, behind, rfl, below⟩ := (ih inside).mp others
      exact ⟨_, .cons first behind, (Nat.add_assoc ..).symm, below⟩
    · rintro ⟨_, costs, rfl, below⟩
      cases costs with
      | cons first behind =>
        have inside : start + (_ - s.discountAfter previous) < cycleLimit :=
          Nat.lt_of_le_of_lt (Nat.add_le_add_left (Nat.le_add_right _ _) start) below
        exact ⟨_, first, _, ⟨rfl, inside⟩,
          (ih inside).mpr ⟨_, behind, Nat.add_assoc .., below⟩⟩

/-- The cost of a block as a whole. -/
theorem Block.cycles_eq_ok_iff {block : Block} {total : Nat} :
    Block.cycles callee block = .ok total ↔
      Block.Costs callee none block total ∧ total < cycleLimit := by
  unfold Block.cycles
  rw [Block.cyclesFrom_eq_ok_iff (by decide)]
  constructor
  · rintro ⟨added, costs, rfl, below⟩
    rw [Nat.zero_add] at below ⊢
    exact ⟨costs, below⟩
  · rintro ⟨costs, below⟩
    exact ⟨total, costs, Nat.zero_add total, below⟩

namespace Block.Costs

variable {previous other : Option Stmt} {block first second : Block} {total one two : Nat}

/-- Only what the statement before loads matters. -/
theorem after (costs : Costs callee previous block total)
    (same : previous.bind Stmt.literalLoad? = other.bind Stmt.literalLoad?) :
    Costs callee other block total := by
  cases costs with
  | nil => exact .nil other
  | cons first behind =>
    rw [Stmt.discountAfter_congr same rfl]
    exact .cons first behind

/-- Behind a statement nothing gets dearer. -/
theorem behind (costs : Costs callee none block total) (previous : Option Stmt) :
    ∃ less, less ≤ total ∧ Costs callee previous block less := by
  cases costs with
  | nil => exact ⟨0, Nat.le_refl 0, .nil previous⟩
  | cons first rest =>
    refine ⟨_, ?_, .cons first rest⟩
    rw [Stmt.discountAfter_none]
    omega

/-- One statement that follows none costs what it does. -/
theorem single {s : Stmt} (known : s.cycles callee = .ok total) : Costs callee none [s] total := by
  have costs : Costs callee none [s] (total - s.discountAfter none + 0) := .cons known (.nil _)
  rwa [Stmt.discountAfter_none] at costs

/-- A last statement that loads nothing adds its cost to that of the others. -/
theorem split_last {init : Block} {s : Stmt} (costs : Costs callee previous (init ++ [s]) total)
    (loadless : s.literalLoad? = none) :
    ∃ others cost, Costs callee previous init others ∧ s.cycles callee = .ok cost ∧
      total = others + cost := by
  induction init generalizing previous total with
  | nil =>
    cases costs with
    | @cons _ _ _ cost _ first behind =>
      cases behind
      have saved : s.discountAfter previous = 0 := Stmt.discountAfter_of_loadless loadless previous
      exact ⟨0, cost, .nil previous, first, by omega⟩
  | cons t rest ih =>
    cases costs with
    | cons first behind =>
      obtain ⟨others, cost, rows, last, rfl⟩ := ih behind
      exact ⟨_, cost, .cons first rows, last, (Nat.add_assoc ..).symm⟩

/-- Two rows of statements together cost no more than each for itself. -/
theorem append (costs : Costs callee previous first one) (others : Costs callee none second two) :
    ∃ less, less ≤ one + two ∧ Costs callee previous (first ++ second) less := by
  induction costs with
  | nil previous =>
    obtain ⟨less, smaller, done⟩ := others.behind previous
    exact ⟨less, by omega, done⟩
  | cons first _ ih =>
    obtain ⟨less, smaller, done⟩ := ih
    exact ⟨_, by omega, .cons first done⟩

end Block.Costs

end Rows

/-! ## Cheaper statements -/

section Rewrites

variable {before after : FunctionId → Except Cause Nat}

/-- A block that costs no more than another one, whatever stands before it. -/
def Block.NoDearer (before after : FunctionId → Except Cause Nat) (old new : Block) : Prop :=
  ∀ previous total, Block.Costs before previous old total →
    ∃ less, less ≤ total ∧ Block.Costs after previous new less

/-- Statements that can take the place of one in any block. -/
def Stmt.MakesWay (before after : FunctionId → Except Cause Nat) (s : Stmt) (others : Block) :
    Prop :=
  ∀ rest newRest, Block.NoDearer before after rest newRest →
    Block.NoDearer before after (s :: rest) (others ++ newRest)

/-- A block that costs no more has a lower cost. -/
theorem Block.NoDearer.lowers {old new : Block} (cheaper : Block.NoDearer before after old new) :
    Lowers (Block.cycles before old) (Block.cycles after new) := by
  intro total known
  obtain ⟨costs, below⟩ := Block.cycles_eq_ok_iff.mp known
  obtain ⟨less, smaller, recosts⟩ := cheaper none total costs
  exact ⟨less, smaller, Block.cycles_eq_ok_iff.mpr ⟨recosts, by omega⟩⟩

/-- No statements cost nothing. -/
theorem Block.NoDearer.nil : Block.NoDearer before after [] [] := by
  rintro previous _ ⟨⟩
  exact ⟨0, Nat.le_refl 0, .nil previous⟩

/-- A cheaper statement that loads the same element can take the place of another. -/
theorem Stmt.MakesWay.keep {s t : Stmt} (same : s.literalLoad? = t.literalLoad?)
    (cheaper : Lowers (s.cycles before) (t.cycles after)) :
    Stmt.MakesWay before after s [t] := by
  intro rest newRest later previous total costs
  cases costs with
  | cons first behind =>
    obtain ⟨less, smaller, refirst⟩ := cheaper _ first
    obtain ⟨sum, lower, rebehind⟩ := later (some s) _ behind
    have saved : s.discountAfter previous = t.discountAfter previous :=
      Stmt.discountAfter_congr rfl same
    have follows : Block.Costs after (some t) newRest sum := rebehind.after same
    refine ⟨_, ?_, .cons refirst follows⟩
    rw [saved]
    omega

/-- Statements that cost no more than one that loads nothing can take its place. -/
theorem Stmt.MakesWay.expand {s : Stmt} {others : Block} (loadless : s.literalLoad? = none)
    (cheaper : ∀ cost, s.cycles before = .ok cost →
      ∃ less, less ≤ cost ∧ Block.Costs after none others less) :
    Stmt.MakesWay before after s others := by
  intro rest newRest later previous total costs
  cases costs with
  | cons first behind =>
    obtain ⟨less, smaller, instead⟩ := cheaper _ first
    obtain ⟨sum, lower, rebehind⟩ := later (some s) _ behind
    -- Nothing behind `s` saves anything because of it.
    have alone : Block.Costs after none newRest sum := rebehind.after loadless
    obtain ⟨ahead, _, reahead⟩ := instead.behind previous
    obtain ⟨whole, lowest, done⟩ := reahead.append alone
    have saved := Stmt.discountAfter_of_loadless loadless previous
    exact ⟨whole, by omega, done⟩

/-- Statements can take the place of each other one by one. -/
theorem Block.NoDearer.cons {s : Stmt} {others rest newRest : Block}
    (first : Stmt.MakesWay before after s others)
    (later : Block.NoDearer before after rest newRest) :
    Block.NoDearer before after (s :: rest) (others ++ newRest) :=
  first rest newRest later

/-- A branch gets cheaper with its guard and its arms. -/
theorem Stmt.lowers_branch {cond newCond : Expr} {thenBody elseBody newThen newElse : Block}
    (guard : Lowers (cond.guard.cycles before) (newCond.guard.cycles after))
    (first : Lowers (Block.cycles before thenBody) (Block.cycles after newThen))
    (second : Lowers (Block.cycles before elseBody) (Block.cycles after newElse))
    (likelihood other : Option Nat) :
    Lowers ((Stmt.branch cond thenBody elseBody likelihood).cycles before)
      ((Stmt.branch newCond newThen newElse other).cycles after) := by
  simp only [Stmt.cycles]
  refine guard.bind fun guardCost newGuard guardLess => first.bind fun thenCost newThen
    thenLess => second.bind fun elseCost newElse elseLess => ?_
  refine (Lowers.checked (by omega)).bind fun decision newDecision decisionLess => ?_
  exact .checked (by omega)

/-- A loop gets cheaper with its condition and its body. -/
theorem Stmt.lowers_loop {counter newCounter : Option String} {bound : TripBound}
    {condition newCondition : Option Expr} {body newBody : Block}
    (test : Lowers (Expr.optionalCycles before condition) (Expr.optionalCycles after newCondition))
    (inside : Lowers (Block.cycles before body) (Block.cycles after newBody)) :
    Lowers ((Stmt.loop counter bound condition body).cycles before)
      ((Stmt.loop newCounter bound newCondition newBody).cycles after) := by
  simp only [Stmt.cycles]
  cases bound.limit? with
  | none => exact fun cost known => by cases known
  | some trips =>
    refine test.bind fun condCost newCond condLess => inside.bind fun bodyCost newBody
      bodyLess => ?_
    refine (Lowers.checked (by omega)).bind fun work newWork workLess => ?_
    refine (Lowers.checked (by omega)).bind fun turn newTurn turnLess => ?_
    refine (Lowers.checked (Nat.mul_le_mul_left trips turnLess)).bind fun turns newTurns
      turnsLess => ?_
    refine (Lowers.checked (by omega)).bind fun entry newEntry entryLess => ?_
    exact .checked (by omega)

end Rewrites

/-! ## Cheaper callees -/

section Prices

variable {before after : FunctionId → Except Cause Nat}

mutual

/-- Cheaper callees make an expression cheaper. -/
theorem Expr.cycles_lowers (cheaper : ∀ id, Lowers (before id) (after id)) : ∀ e : Expr,
    Lowers (e.cycles before) (e.cycles after)
  | .lit _ | .var _ | .global _ => .refl _
  | .load _ index => by
    simp only [Expr.cycles]
    exact (Expr.cycles_lowers cheaper index).bind fun cost less smaller => .checked (by omega)
  | .unary _ _ operand => by
    simp only [Expr.cycles]
    exact (Expr.cycles_lowers cheaper operand).bind fun cost less smaller => .checked (by omega)
  | .binary _ _ left right => by
    simp only [Expr.cycles]
    refine (Expr.cycles_lowers cheaper left).bind fun leftCost leftLess first =>
      (Expr.cycles_lowers cheaper right).bind fun rightCost rightLess second => ?_
    exact (Lowers.checked (by omega)).bind fun cost less smaller => .checked (by omega)
  | .call id args => by
    simp only [Expr.cycles]
    refine (Args.cycles_lowers cheaper args (Nat.le_refl _)).bind fun passing newPassing passed =>
      (cheaper id).bind fun activation newActivation run => ?_
    exact .checked (by omega)

/-- Cheaper callees make arguments cheaper. -/
theorem Args.cycles_lowers (cheaper : ∀ id, Lowers (before id) (after id)) :
    ∀ (args : List Expr) {start newStart : Nat}, newStart ≤ start →
      Lowers (Args.cycles before start args) (Args.cycles after newStart args)
  | [], start, newStart, sofar => by
    intro cost known
    cases known
    exact ⟨newStart, sofar, rfl⟩
  | arg :: args, start, newStart, sofar => by
    simp only [Args.cycles]
    refine (Expr.cycles_lowers cheaper arg).bind fun cost less smaller => ?_
    exact (Lowers.checked (by omega)).bind fun total newTotal lower =>
      Args.cycles_lowers cheaper args lower

end

/-- Cheaper callees make an optional expression cheaper. -/
theorem Expr.optionalCycles_lowers (cheaper : ∀ id, Lowers (before id) (after id))
    (e : Option Expr) :
    Lowers (Expr.optionalCycles before e) (Expr.optionalCycles after e) := by
  cases e with
  | none => exact .refl _
  | some e => exact Expr.cycles_lowers cheaper e

mutual

/-- Cheaper callees make a statement cheaper. -/
theorem Stmt.cycles_lowers (cheaper : ∀ id, Lowers (before id) (after id)) : ∀ s : Stmt,
    Lowers (s.cycles before) (s.cycles after)
  | .bind _ _ value | .assign _ value | .setGlobal _ value | .emit _ value => by
    simp only [Stmt.cycles]
    exact (Expr.cycles_lowers cheaper value).bind fun cost less smaller => .checked (by omega)
  | .store _ index value => by
    simp only [Stmt.cycles]
    refine (Expr.cycles_lowers cheaper index).bind fun indexCost newIndex first =>
      (Expr.cycles_lowers cheaper value).bind fun valueCost newValue second => ?_
    exact (Lowers.checked (by omega)).bind fun cost less smaller => .checked (by omega)
  | .eval value => Expr.cycles_lowers cheaper value
  | .branch cond thenBody elseBody _ =>
    Stmt.lowers_branch (Expr.cycles_lowers cheaper cond.guard)
      (Block.noDearer_of_lowers cheaper thenBody).lowers
      (Block.noDearer_of_lowers cheaper elseBody).lowers _ _
  | .loop _ _ condition body =>
    Stmt.lowers_loop (Expr.optionalCycles_lowers cheaper condition)
      (Block.noDearer_of_lowers cheaper body).lowers
  | .ret value => by
    simp only [Stmt.cycles]
    exact (Expr.optionalCycles_lowers cheaper value).bind fun cost less smaller =>
      .checked (by omega)

/-- Cheaper callees make a block cheaper. -/
theorem Block.noDearer_of_lowers (cheaper : ∀ id, Lowers (before id) (after id)) :
    ∀ block : List Stmt, Block.NoDearer before after block block
  | [] => .nil
  | s :: rest =>
    .cons (.keep rfl (Stmt.cycles_lowers cheaper s)) (Block.noDearer_of_lowers cheaper rest)

end

end Prices

end Timebound
