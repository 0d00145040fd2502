import Timebound.Guided.Pass
import Timebound.Proofs.Renaming

/-!
# Meaning of unrolled bodies

Unrolling writes the iterations of a loop one after another into the enclosing
block, and marks the names that an iteration binds. A body means the same after
that (`Redraft.activate_unroll`) when the marked names are clear of two accidents:
a marked name must not be bound again between its binding and a use that is renamed
to it, and must not be used by what comes after its copy. The pass checks neither, and
both happen in loops nested in loops; `captured` is the smallest case. The counters
need no such condition, since unrolling takes only private ones.
-/

namespace Timebound

/-! ## Private counters -/

/-- A statement that does not mention a name does not read it. -/
theorem Stmt.not_mem_reads {s : Stmt} {name : String} (unmentioned : s.mentions name = false)
    {e : Expr} (part : e ∈ s.exprs) : name ∉ e.reads := by
  intro read
  rw [Expr.reads, List.mem_filterMap] at read
  obtain ⟨node, listed, named⟩ := read
  unfold Stmt.mentions at unmentioned
  have nothing := (Bool.or_eq_false_iff.mp unmentioned).2
  rw [List.any_eq_false] at nothing
  have own : node ∈ s.ownNodes := List.mem_flatMap.mpr ⟨e, part, listed⟩
  cases node with
  | var held =>
    cases named
    exact nothing _ own (by simp)
  | _ => simp [Expr.readName?] at named

mutual

/-- A private counter is not free in a statement. -/
theorem Stmt.not_mem_free_of_keepsPrivate {name : String} : ∀ s : Stmt,
    s.keepsPrivate name = true → name ∉ s.free
  | .bind bound type value, kept => by
    rw [Stmt.keepsPrivate, Bool.not_eq_true'] at kept
    exact Stmt.not_mem_reads kept (by simp [Stmt.exprs])
  | .assign assigned value, kept => by
    rw [Stmt.keepsPrivate, Bool.not_eq_true'] at kept
    have apart : assigned ≠ name := by
      unfold Stmt.mentions at kept
      simpa using (Bool.or_eq_false_iff.mp kept).1
    have unread : name ∉ value.reads := Stmt.not_mem_reads kept (by simp [Stmt.exprs])
    simp only [Stmt.free, List.mem_cons, not_or]
    exact ⟨apart.symm, unread⟩
  | .setGlobal id value, kept => by
    rw [Stmt.keepsPrivate, Bool.not_eq_true'] at kept
    exact Stmt.not_mem_reads kept (by simp [Stmt.exprs])
  | .store id index value, kept => by
    rw [Stmt.keepsPrivate, Bool.not_eq_true'] at kept
    have first : name ∉ index.reads := Stmt.not_mem_reads kept (by simp [Stmt.exprs])
    have second : name ∉ value.reads := Stmt.not_mem_reads kept (by simp [Stmt.exprs])
    simp only [Stmt.free, List.mem_append, not_or]
    exact ⟨first, second⟩
  | .emit channel value, kept => by
    rw [Stmt.keepsPrivate, Bool.not_eq_true'] at kept
    exact Stmt.not_mem_reads kept (by simp [Stmt.exprs])
  | .eval value, kept => by
    rw [Stmt.keepsPrivate, Bool.not_eq_true'] at kept
    exact Stmt.not_mem_reads kept (by simp [Stmt.exprs])
  | .branch cond thenBody elseBody likelihood, kept => by
    rw [Stmt.keepsPrivate, Bool.and_eq_true, Bool.and_eq_true, Bool.not_eq_true'] at kept
    have decided : name ∉ cond.reads := Stmt.not_mem_reads kept.1 (by simp [Stmt.exprs])
    have inThen := Block.not_mem_free_of_keepsPrivate thenBody kept.2.1
    have inElse := Block.not_mem_free_of_keepsPrivate elseBody kept.2.2
    simp only [Stmt.free, List.mem_append, not_or]
    exact ⟨decided, inThen, inElse⟩
  | .loop counter bound condition body, kept => by
    rw [Stmt.keepsPrivate] at kept
    rw [Stmt.mem_free_loop]
    split at kept
    · rename_i counts
      exact fun free => free.2 counts
    · rw [Bool.and_eq_true, Bool.not_eq_true'] at kept
      have inBody := Block.not_mem_free_of_keepsPrivate body kept.2
      have decided : name ∉ Args.reads condition.toList := by
        cases condition with
        | none => simp
        | some e => simpa using Stmt.not_mem_reads kept.1 (e := e) (by simp [Stmt.exprs])
      exact fun free => free.1.elim decided inBody
  | .ret value, kept => by
    rw [Stmt.keepsPrivate, Bool.not_eq_true'] at kept
    cases value with
    | none => simp [Stmt.free]
    | some e => simpa [Stmt.free] using Stmt.not_mem_reads kept (e := e) (by simp [Stmt.exprs])

/-- A private counter is not free in a block. -/
theorem Block.not_mem_free_of_keepsPrivate {name : String} : ∀ block : Block,
    Block.keepsPrivate name block = true → name ∉ Block.free block
  | [], _ => by simp [Block.free]
  | s :: rest, kept => by
    rw [Block.keepsPrivate, Bool.and_eq_true] at kept
    have first := Stmt.not_mem_free_of_keepsPrivate s kept.1
    have others := Block.not_mem_free_of_keepsPrivate rest kept.2
    rw [Block.mem_free_cons, not_or]
    exact ⟨first, fun free => others free.1⟩

end

/-- A set of counters of which each is private in a block, if the block has it. -/
def Block.Tidy (counters : List String) (block : Block) : Prop :=
  ∀ counter ∈ counters, counter ∈ Block.counters block → Block.keepsPrivate counter block = true

/-- The counters that the pass takes are private. -/
theorem Function.tidy_privateCounters (function : Function) (body : Block) :
    Block.Tidy (function.privateCounters body) body := by
  intro counter taken _
  have kept := (List.mem_filter.mp taken).2
  rw [Bool.and_eq_true] at kept
  exact kept.2

section Tidy

variable {counters : List String}

theorem Block.Tidy.tail {s : Stmt} {rest : Block} (tidy : Block.Tidy counters (s :: rest)) :
    Block.Tidy counters rest := by
  intro counter listed counted
  have whole := tidy counter listed (by simp [Block.counters, counted])
  rw [Block.keepsPrivate, Bool.and_eq_true] at whole
  exact whole.2

theorem Block.Tidy.arms {cond : Expr} {thenBody elseBody rest : Block} {likelihood : Option Nat}
    (tidy : Block.Tidy counters (.branch cond thenBody elseBody likelihood :: rest)) :
    Block.Tidy counters thenBody ∧ Block.Tidy counters elseBody := by
  constructor
  · intro counter listed counted
    have whole := tidy counter listed (by simp [Block.counters, Stmt.counters, counted])
    simp only [Block.keepsPrivate, Stmt.keepsPrivate, Bool.and_eq_true] at whole
    exact whole.1.2.1
  · intro counter listed counted
    have whole := tidy counter listed (by simp [Block.counters, Stmt.counters, counted])
    simp only [Block.keepsPrivate, Stmt.keepsPrivate, Bool.and_eq_true] at whole
    exact whole.1.2.2

theorem Block.Tidy.loopBody {counter : Option String} {bound : TripBound}
    {condition : Option Expr} {body rest : Block}
    (tidy : Block.Tidy counters (.loop counter bound condition body :: rest)) :
    Block.Tidy counters body := by
  intro name listed counted
  have whole := tidy name listed (by simp [Block.counters, Stmt.counters, counted])
  rw [Block.keepsPrivate, Bool.and_eq_true, Stmt.keepsPrivate] at whole
  have own := whole.1
  split at own
  · -- A loop nested in one of its own counter would not be private.
    simp [counted] at own
  · rw [Bool.and_eq_true] at own
    exact own.2

/-- The counter of a loop is not used by the statements after the loop. -/
theorem Block.Tidy.counter_not_free {name : String} {bound : TripBound} {condition : Option Expr}
    {body rest : Block}
    (tidy : Block.Tidy counters (.loop (some name) bound condition body :: rest))
    (listed : name ∈ counters) : name ∉ Block.free rest := by
  have whole := tidy name listed (by simp [Block.counters, Stmt.counters])
  rw [Block.keepsPrivate, Bool.and_eq_true] at whole
  exact Block.not_mem_free_of_keepsPrivate rest whole.2

end Tidy

/-! ## Copies of a loop body -/

/-- What is free in a copy is free in the loop body and is not the counter. -/
theorem free_loopCopy {counter : Option String} {body : Block} {copy : Nat} {name : String}
    (free : name ∈ Block.free (loopCopy counter body copy)) :
    name ∈ Block.free body ∧ counter ≠ some name := by
  unfold loopCopy at free
  cases counter with
  | none =>
    obtain ⟨old, oldFree, rfl⟩ := Block.free_rebind id _ body free
    exact ⟨oldFree, nofun⟩
  | some bound =>
    rw [Option.toList_some, List.map_singleton, List.singleton_append, Block.mem_free_cons] at free
    rcases free with inLiteral | ⟨inCopy, kept⟩
    · simp [Stmt.free] at inLiteral
    · obtain ⟨old, oldFree, rfl⟩ := Block.free_rebind id _ body inCopy
      exact ⟨oldFree, kept⟩

/-- What is free in copies in a row is free in the loop body and is not the counter. -/
theorem free_copies {counter : Option String} {body : Block} {name : String} :
    ∀ {copies : List Nat}, name ∈ Block.free (copies.flatMap (loopCopy counter body)) →
      name ∈ Block.free body ∧ counter ≠ some name := by
  intro copies
  induction copies with
  | nil => exact fun free => by simp [Block.free] at free
  | cons copy later ih =>
    intro free
    rw [List.flatMap_cons] at free
    rcases Block.free_append free with here | others
    · exact free_loopCopy here
    · exact ih others

/-- The names a copy binds: the counter, and the marked names of the body. -/
theorem boundNames_loopCopy (counter : Option String) (body : Block) (copy : Nat) :
    Block.boundNames (loopCopy counter body copy) =
      counter.toList ++ (Block.boundNames body).map (copyMark counter copy ++ ·) := by
  have marked := Block.boundNames_rebind body id (some (copyMark counter copy))
  unfold loopCopy
  unfold Block.boundNames at marked ⊢
  rw [List.filterMap_append, marked]
  cases counter <;> rfl

/-- The iterations of an unrolled loop are known, it has no condition, and its
counter is one that may be bound outside. -/
theorem unrolledTrips?_eq_some {limit : Nat} {counters : List String} {counter : Option String}
    {bound : TripBound} {condition : Option Expr} {trips : Nat}
    (unrolled : unrolledTrips? limit counters counter bound condition = some trips) :
    bound = .exact trips ∧ condition = none ∧ ∀ name, counter = some name → name ∈ counters := by
  unfold unrolledTrips? at unrolled
  split at unrolled
  · split at unrolled
    · rename_i short
      cases unrolled
      refine ⟨rfl, rfl, fun name counts => ?_⟩
      have taken := short.2
      rw [counts, Option.all_some] at taken
      simpa using taken
    · simp at unrolled
  · simp at unrolled

mutual

/-- Unrolling a statement makes no name free. -/
theorem Stmt.free_unroll (limit : Nat) (counters : List String) : ∀ (s : Stmt) {name : String},
    name ∈ Block.free (s.unroll limit counters) → name ∈ s.free
  | .bind .., name, free | .assign .., name, free | .setGlobal .., name, free
  | .store .., name, free | .emit .., name, free | .eval _, name, free | .ret _, name, free => by
    simpa [Stmt.unroll, Block.free] using free
  | .branch cond thenBody elseBody _, name, free => by
    simp only [Stmt.unroll, Block.mem_free_cons, Stmt.free, List.mem_append] at free ⊢
    rcases free with (decided | inThen | inElse) | ⟨none, _⟩
    · exact .inl decided
    · exact .inr (.inl (Block.free_unroll limit counters thenBody inThen))
    · exact .inr (.inr (Block.free_unroll limit counters elseBody inElse))
    · simp [Block.free] at none
  | .loop counter bound condition body, name, free => by
    rw [Stmt.mem_free_loop]
    simp only [Stmt.unroll] at free
    split at free
    · obtain ⟨inBody, apart⟩ := free_copies free
      exact ⟨.inr (Block.free_unroll limit counters body inBody), apart⟩
    · rw [Block.mem_free_cons, Stmt.mem_free_loop] at free
      rcases free with ⟨used, apart⟩ | ⟨none, _⟩
      · exact ⟨used.imp_right (Block.free_unroll limit counters body), apart⟩
      · simp [Block.free] at none

/-- Unrolling a block makes no name free. -/
theorem Block.free_unroll (limit : Nat) (counters : List String) : ∀ (block : Block)
    {name : String}, name ∈ Block.free (Block.unroll limit counters block) →
      name ∈ Block.free block
  | [], _, free => free
  | s :: rest, name, free => by
    rw [Block.unroll] at free
    rw [Block.mem_free_cons]
    cases binds : s.boundName? with
    | none =>
      rcases Block.free_append free with first | others
      · exact .inl (Stmt.free_unroll limit counters s first)
      · exact .inr ⟨Block.free_unroll limit counters rest others, nofun⟩
    | some bound => cases s with
      | bind held type value =>
        rw [Stmt.unroll, List.singleton_append, Block.mem_free_cons, binds] at free
        exact free.imp_right fun later =>
          ⟨Block.free_unroll limit counters rest later.1, later.2⟩
      | _ => simp [Stmt.boundName?] at binds

end

/-! ## Clean unrolling -/

/-- Whether copies can be put in front of `rest`: marking captures nothing, and the
marked names of a copy are not used by what comes after it. -/
def copiesFit (counter : Option String) (body rest : Block) : List Nat → Bool
  | [] => true
  | copy :: later =>
    Block.avoidsCapture id (some (copyMark counter copy)) body &&
      ((Block.boundNames body).all fun name =>
        !(Block.free (later.flatMap (loopCopy counter body) ++ rest)).contains
          (copyMark counter copy ++ name)) &&
      copiesFit counter body rest later

mutual

/-- Whether the loops of a statement can be unrolled in front of `rest`. -/
def Stmt.unrollsCleanly (limit : Nat) (counters : List String) (rest : Block) : Stmt → Bool
  | .branch _ thenBody elseBody _ =>
    Block.unrollsCleanly limit counters thenBody && Block.unrollsCleanly limit counters elseBody
  | .loop counter bound condition body =>
    Block.unrollsCleanly limit counters body &&
      match unrolledTrips? limit counters counter bound condition with
      | some trips =>
        copiesFit counter (Block.unroll limit counters body) rest (List.range trips)
      | none => true
  | .bind .. | .assign .. | .setGlobal .. | .store .. | .emit .. | .eval _ | .ret _ => true

/-- Whether no name that unrolling a block introduces hides another or is in use. -/
def Block.unrollsCleanly (limit : Nat) (counters : List String) : List Stmt → Bool
  | [] => true
  | s :: rest =>
    s.unrollsCleanly limit counters (Block.unroll limit counters rest) &&
      Block.unrollsCleanly limit counters rest

end

/-! ## Runs -/

/-- A copy runs as an iteration does. -/
theorem run_loopCopy (setting : Setting) {counter : Option String} {body : Block} {copy : Nat}
    (avoids : Block.avoidsCapture id (some (copyMark counter copy)) body = true)
    (locals : Locals) :
    Block.run setting (loopCopy counter body copy) locals =
      Flow.leave counter locals <$> Block.run setting body (locals.enter counter copy) := by
  have marked := Block.run_rebind_id setting avoids
  unfold loopCopy
  cases counter with
  | none => simpa [Locals.enter] using marked locals
  | some name =>
    simp [Block.run, Stmt.run, Expr.value, Expr.eval, Run.need, Stmt.boundName?, Locals.enter,
      marked]

/-- Copies in a row run as the iterations do. -/
theorem run_copies (setting : Setting) {counter : Option String} {body rest : Block}
    (unused : ∀ name, counter = some name → name ∉ Block.free rest) (left : Nat) :
    ∀ (turn : Nat) (locals : Locals),
      copiesFit counter body rest (List.range' turn left) = true →
        Block.run setting ((List.range' turn left).flatMap (loopCopy counter body) ++ rest) locals =
          loopTurns counter (Expr.holds setting none) (Block.run setting body)
              (fun left => pure (.onward left)) left turn locals >>=
            fun flow => flow.next (Block.run setting rest) := by
  induction left with
  | zero => exact fun _ locals _ => by simp [loopTurns]
  | succ left ih =>
    intro turn locals fit
    rw [List.range'_succ] at fit ⊢
    rw [copiesFit, Bool.and_eq_true, Bool.and_eq_true] at fit
    obtain ⟨⟨avoids, clear⟩, fitLater⟩ := fit
    have apart : ∀ name ∈ Block.boundNames (loopCopy counter body turn), name ∉ Block.free
        ((List.range' (turn + 1) left).flatMap (loopCopy counter body) ++ rest) := by
      intro name bound
      rw [boundNames_loopCopy, List.mem_append] at bound
      rcases bound with counts | marked
      · have counted : counter = some name := by simpa using counts
        intro free
        rcases Block.free_append free with inCopies | inRest
        · exact (free_copies inCopies).2 counted
        · exact unused name counted inRest
      · obtain ⟨old, oldBound, rfl⟩ := List.mem_map.mp marked
        have notUsed := List.all_eq_true.mp clear old oldBound
        simpa using notUsed
    rw [List.flatMap_cons, List.append_assoc, Block.run_append setting apart,
      run_loopCopy setting avoids]
    simp only [loopTurns, Expr.holds, pure_bind, if_true, bind_assoc, bind_map_left]
    congr 1
    funext flow
    cases flow.leave counter locals with
    | returned value => simp
    | onward after => exact ih (turn + 1) after fitLater

mutual

/-- An unrolled statement runs in front of others as the statement does. -/
theorem Stmt.run_unroll (setting : Setting) {limit : Nat} {counters : List String} :
    ∀ (s : Stmt) {rest unrolled : Block}, s.boundName? = none →
      Block.Tidy counters (s :: rest) →
        (∀ name ∈ Block.free unrolled, name ∈ Block.free rest) →
          s.unrollsCleanly limit counters unrolled = true → ∀ locals : Locals,
            Block.run setting (s.unroll limit counters ++ unrolled) locals =
              s.run setting locals >>= fun flow => flow.next (Block.run setting unrolled)
  | .bind .., _, _, binds, _, _, _, _ => by simp [Stmt.boundName?] at binds
  | .assign .., _, _, _, _, _, _, _ | .setGlobal .., _, _, _, _, _, _, _
  | .store .., _, _, _, _, _, _, _ | .emit .., _, _, _, _, _, _, _
  | .eval _, _, _, _, _, _, _, _ | .ret _, _, _, _, _, _, _, _ => by
    simp [Stmt.unroll, Block.run, Stmt.boundName?]
  | .branch cond thenBody elseBody _, _, _, _, tidy, _, clean, locals => by
    rw [Stmt.unrollsCleanly, Bool.and_eq_true] at clean
    have thenSame := Block.run_unroll setting thenBody tidy.arms.1 clean.1
    have elseSame := Block.run_unroll setting elseBody tidy.arms.2 clean.2
    simp [Stmt.unroll, Block.run, Stmt.boundName?, Stmt.run, thenSame, elseSame]
  | .loop counter bound condition body, rest, unrolled, _, tidy, shrinks, clean, locals => by
    rw [Stmt.unrollsCleanly, Bool.and_eq_true] at clean
    have bodySame : Block.run setting (Block.unroll limit counters body) =
        Block.run setting body := funext (Block.run_unroll setting body tidy.loopBody clean.1)
    have fits := clean.2
    simp only [Stmt.unroll]
    cases trips : unrolledTrips? limit counters counter bound condition with
    | none => simp [Block.run, Stmt.boundName?, Stmt.run, bodySame]
    | some count =>
      rw [trips] at fits
      obtain ⟨rfl, rfl, taken⟩ := unrolledTrips?_eq_some trips
      have unused : ∀ name, counter = some name → name ∉ Block.free unrolled := by
        intro name counts free
        subst counts
        exact tidy.counter_not_free (taken name rfl) (shrinks name free)
      simp only [List.range_eq_range'] at fits ⊢
      rw [run_copies setting unused count 0 locals fits, bodySame]
      rfl

/-- A block that is unrolled cleanly runs as the original does. -/
theorem Block.run_unroll (setting : Setting) {limit : Nat} {counters : List String} :
    ∀ block : Block, Block.Tidy counters block →
      Block.unrollsCleanly limit counters block = true → ∀ locals : Locals,
        Block.run setting (Block.unroll limit counters block) locals =
          Block.run setting block locals
  | [], _, _, _ => rfl
  | s :: rest, tidy, clean, locals => by
    rw [Block.unrollsCleanly, Bool.and_eq_true] at clean
    have others : Block.run setting (Block.unroll limit counters rest) =
        Block.run setting rest := funext (Block.run_unroll setting rest tidy.tail clean.2)
    rw [Block.unroll]
    cases binds : s.boundName? with
    | none =>
      have shrinks : ∀ name ∈ Block.free (Block.unroll limit counters rest),
          name ∈ Block.free rest := fun name free => Block.free_unroll limit counters rest free
      rw [Stmt.run_unroll setting s binds tidy shrinks clean.1, others]
      simp [Block.run, binds]
    | some name => cases s with
      | bind bound type value => simp only [Stmt.unroll, List.singleton_append, Block.run, others]
      | _ => simp [Stmt.boundName?] at binds

end

/-- Unrolling keeps the meaning of a body, whatever calls mean and for every limit,
arguments and world, as long as no name that it introduces hides another or is in use. -/
theorem Guided.Redraft.activate_unroll (setting : Setting) (function : Function) (limit : Nat)
    (draft : Redraft)
    (clean : Block.unrollsCleanly limit (function.privateCounters draft.body) draft.body = true)
    (args : List Literal) :
    Block.activate setting function.params (draft.unroll limit function).body args =
      Block.activate setting function.params draft.body args := by
  have tidy := function.tidy_privateCounters draft.body
  unfold Block.activate Redraft.unroll
  rw [Block.run_unroll setting draft.body tidy clean]

/-- A small signed number. -/
def small (value : Int) : Literal := .ofInt (.int .w32) value

/-- An entry point without parameters. -/
def lonely : Function where
  name := entryPoint

/-- A setting without functions, in which no loop is waited for. -/
def Setting.bare : Setting where
  call _ _ := throw .badCall
  patience := 0

/-- A world without globals and output. -/
def World.blank : World where
  globals _ := []

/-- A loop in a loop, with a local in each. The inner one adds the counter of the
outer one to the outer local, which every outer iteration sends. -/
def nestedSums : Guided.Redraft where
  inlineSites := 0
  body := [.loop (some "i") (.exact 2) none [
    .bind "x" (.int .w32) (.lit (small 10)),
    .loop none (.exact 2) none [
      .bind "y" (.int .w32) (.binary .add (.int .w32) (.var "x") (.var "i")),
      .assign "x" (.var "y")],
    .emit 1 (.var "x")]]

/-- The loops of `nestedSums` are unrolled cleanly, so its unrolled body sends what
the loops send. -/
theorem activate_unroll_nestedSums :
    Block.unrollsCleanly 8 (lonely.privateCounters nestedSums.body) nestedSums.body = true ∧
      Block.activate .bare lonely.params (nestedSums.unroll 8 lonely).body [] =
        Block.activate .bare lonely.params nestedSums.body [] := by
  have clean : Block.unrollsCleanly 8 (lonely.privateCounters nestedSums.body)
      nestedSums.body = true := by decide +kernel
  exact ⟨clean, Guided.Redraft.activate_unroll .bare lonely 8 nestedSums clean []⟩

/-- Two nested loops without counters. Both copies are marked alike, and the inner
one binds its local in an arm, where a use of the outer local stands after it. -/
def captured : Guided.Redraft where
  inlineSites := 0
  body := [.loop none (.exact 1) none [
    .bind "x" (.int .w32) (.lit (small 1)),
    .branch (.lit (.ofBool true)) [
      .loop none (.exact 1) none [.bind "x" (.int .w32) (.lit (small 2))],
      .emit 1 (.var "x")] [] none]]

/-- Unrolling `captured` is not clean: the body sends the outer local, and the
unrolled body sends the inner one. -/
theorem activate_unroll_captured :
    Block.unrollsCleanly 8 (lonely.privateCounters captured.body) captured.body = false ∧
      ((Block.activate .bare lonely.params captured.body []).run.run .blank).2.output =
        [(1, small 1)] ∧
      ((Block.activate .bare lonely.params (captured.unroll 8 lonely).body []).run.run
        .blank).2.output = [(1, small 2)] := by
  decide +kernel

end Timebound
