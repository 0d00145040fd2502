import Timebound.Proofs.Semantics

/-!
# Local names

The free names of a block are those it reads or assigns without binding them. A
block neither looks at nor changes any other name (`Block.run_put`). Therefore a
block can be put in front of statements that do not use the names it binds: giving
those names up at the end of the longer block or at the end of the shorter one
makes no difference (`Block.run_append`).
-/

namespace Timebound

/-! ## Names that are read -/

/-- The local name a node reads. -/
def Expr.readName? : Expr → Option String
  | .var name => some name
  | _ => none

/-- The local names an expression reads. -/
def Expr.reads (e : Expr) : List String := e.nodes.filterMap Expr.readName?

/-- The local names arguments read. -/
def Args.reads (args : List Expr) : List String := (Args.nodes args).filterMap Expr.readName?

@[simp] theorem Expr.reads_lit (value : Literal) : (Expr.lit value).reads = [] := rfl

@[simp] theorem Expr.reads_var (read : String) : (Expr.var read).reads = [read] := rfl

@[simp] theorem Expr.reads_global (id : GlobalId) : (Expr.global id).reads = [] := rfl

@[simp] theorem Expr.reads_load (id : GlobalId) (index : Expr) :
    (Expr.load id index).reads = index.reads := rfl

@[simp] theorem Expr.reads_unary (op : UnaryOp) (type : ScalarType) (operand : Expr) :
    (Expr.unary op type operand).reads = operand.reads := rfl

@[simp] theorem Expr.reads_binary (op : BinaryOp) (type : ScalarType) (left right : Expr) :
    (Expr.binary op type left right).reads = left.reads ++ right.reads := by
  rw [Expr.reads, Expr.nodes, List.filterMap_cons_none rfl, List.filterMap_append]
  rfl

@[simp] theorem Expr.reads_call (callee : FunctionId) (args : List Expr) :
    (Expr.call callee args).reads = Args.reads args := rfl

@[simp] theorem Args.reads_nil : Args.reads [] = [] := rfl

@[simp] theorem Args.reads_cons (arg : Expr) (args : List Expr) :
    Args.reads (arg :: args) = arg.reads ++ Args.reads args := by
  simp [Expr.reads, Args.reads, Args.nodes]

mutual

/-- Renaming the local names of an expression does not change its value where the
new names hold what the old ones did. -/
theorem Expr.eval_rename (setting : Setting) {relabel : String → String}
    {locals renamed : Locals} : ∀ e : Expr,
    (∀ name ∈ e.reads, locals name = renamed (relabel name)) →
      (e.rename relabel).eval setting renamed = e.eval setting locals
  | .lit _, _ => rfl
  | .var name, agree => by
    have held := agree name (by simp)
    simp only [Expr.rename, Expr.eval, held]
  | .global _, _ => rfl
  | .load _ index, agree => by
    have same := Expr.eval_rename setting index fun name read => agree name (by simpa)
    simp only [Expr.rename, Expr.eval, same]
  | .unary _ _ operand, agree => by
    have same := Expr.eval_rename setting operand fun name read => agree name (by simpa)
    simp only [Expr.rename, Expr.eval, same]
  | .binary _ _ left right, agree => by
    have first := Expr.eval_rename setting left fun name read =>
      agree name (by simp [read])
    have second := Expr.eval_rename setting right fun name read =>
      agree name (by simp [read])
    simp only [Expr.rename, Expr.eval, first, second]
  | .call _ args, agree => by
    have same := Args.eval_rename setting args fun name read => agree name (by simpa)
    simp only [Expr.rename, Expr.eval, same]

/-- Renaming the local names of arguments does not change their values. -/
theorem Args.eval_rename (setting : Setting) {relabel : String → String}
    {locals renamed : Locals} : ∀ args : List Expr,
    (∀ name ∈ Args.reads args, locals name = renamed (relabel name)) →
      Args.eval setting renamed (Args.rename relabel args) = Args.eval setting locals args
  | [], _ => rfl
  | arg :: args, agree => by
    have first := Expr.eval_rename setting arg fun name read =>
      agree name (by simp [read])
    have others := Args.eval_rename setting args fun name read =>
      agree name (by simp [read])
    simp only [Args.rename, Args.eval, first, others]

end

mutual

/-- A naming that changes nothing leaves an expression alone. -/
theorem Expr.rename_id : ∀ e : Expr, e.rename id = e
  | .lit _ | .var _ | .global _ => rfl
  | .load _ index => by rw [Expr.rename, Expr.rename_id index]
  | .unary _ _ operand => by rw [Expr.rename, Expr.rename_id operand]
  | .binary _ _ left right => by rw [Expr.rename, Expr.rename_id left, Expr.rename_id right]
  | .call _ args => by rw [Expr.rename, Args.rename_id args]

/-- A naming that changes nothing leaves arguments alone. -/
theorem Args.rename_id : ∀ args : List Expr, Args.rename id args = args
  | [] => rfl
  | arg :: args => by rw [Args.rename, Expr.rename_id arg, Args.rename_id args]

end

/-- The value of an expression does not depend on names that it does not read. -/
theorem Expr.eval_put (setting : Setting) {e : Expr} {name : String} (unread : name ∉ e.reads)
    (locals : Locals) (held : Option Literal) :
    e.eval setting (Function.update locals name held) = e.eval setting locals := by
  have agree : ∀ other ∈ e.reads, locals other = Function.update locals name held (id other) := by
    intro other read
    have apart : other ≠ name := fun equal => unread (equal ▸ read)
    exact (Function.update_of_ne apart held locals).symm
  have same := Expr.eval_rename setting e agree
  rwa [Expr.rename_id] at same

/-- A value that must be there does not depend on names that are not read. -/
theorem Expr.value_put (setting : Setting) {e : Expr} {name : String} (unread : name ∉ e.reads)
    (locals : Locals) (held : Option Literal) :
    e.value setting (Function.update locals name held) = e.value setting locals := by
  rw [Expr.value, Expr.value, Expr.eval_put setting unread]

/-! ## Free names -/

mutual

/-- The names a statement reads or assigns without binding them. -/
def Stmt.free : Stmt → List String
  | .bind _ _ value | .setGlobal _ value | .emit _ value | .eval value => value.reads
  | .assign name value => name :: value.reads
  | .store _ index value => index.reads ++ value.reads
  | .branch cond thenBody elseBody _ => cond.reads ++ (Block.free thenBody ++ Block.free elseBody)
  | .loop counter _ condition body =>
    (Args.reads condition.toList ++ Block.free body).filter fun name => counter != some name
  | .ret value => Args.reads value.toList

/-- The names a block reads or assigns without binding them. -/
def Block.free : List Stmt → List String
  | [] => []
  | s :: rest => s.free ++ (Block.free rest).filter fun name => s.boundName? != some name

end

/-- The names a block binds at its top level. -/
def Block.boundNames (block : Block) : List String := block.filterMap Stmt.boundName?

/-- A name is free in a block when it is free in its first statement, or in the
others and not bound by the first. -/
theorem Block.mem_free_cons {name : String} {s : Stmt} {rest : Block} :
    name ∈ Block.free (s :: rest) ↔
      name ∈ s.free ∨ (name ∈ Block.free rest ∧ s.boundName? ≠ some name) := by
  simp [Block.free]

/-- A name is free in a loop when its condition or body uses it and it is not the counter. -/
theorem Stmt.mem_free_loop {name : String} {counter : Option String} {bound : TripBound}
    {condition : Option Expr} {body : Block} :
    name ∈ (Stmt.loop counter bound condition body).free ↔
      (name ∈ Args.reads condition.toList ∨ name ∈ Block.free body) ∧ counter ≠ some name := by
  simp only [Stmt.free, List.mem_filter, List.mem_append, bne_iff_ne]

/-- What is free in a concatenation is free in one of its parts. -/
theorem Block.free_append {name : String} {first second : Block}
    (free : name ∈ Block.free (first ++ second)) :
    name ∈ Block.free first ∨ name ∈ Block.free second := by
  induction first with
  | nil => exact .inr free
  | cons s rest ih =>
    rw [List.cons_append, Block.mem_free_cons] at free
    rw [Block.mem_free_cons]
    rcases free with here | ⟨later, kept⟩
    · exact .inl (.inl here)
    · rcases ih later with inRest | inSecond
      · exact .inl (.inr ⟨inRest, kept⟩)
      · exact .inr inSecond

/-! ## Names that are not free -/

/-- Putting one name after another does not depend on their order. -/
theorem Flow.put_comm {first second : String} (apart : first ≠ second)
    (held other : Option Literal) (flow : Flow) :
    (flow.put second other).put first held = (flow.put first held).put second other := by
  cases flow with
  | onward locals => rw [put, put, put, put, Function.update_comm apart]
  | returned value => rfl

/-- The last of two values put for a name counts. -/
theorem Flow.put_put (name : String) (held other : Option Literal) (flow : Flow) :
    (flow.put name other).put name held = flow.put name held := by
  cases flow with
  | onward locals => rw [put, put, put, Function.update_idem]
  | returned value => rfl

/-- Leaving the scope of another name does not touch a name. -/
theorem Flow.leave_put {bound : Option String} {name : String} (apart : bound ≠ some name)
    (outer : Locals) (held : Option Literal) (flow : Flow) :
    (flow.put name held).leave bound (Function.update outer name held) =
      (flow.leave bound outer).put name held := by
  cases bound with
  | none => rfl
  | some other =>
    have different : other ≠ name := fun equal => apart (congrArg some equal)
    rw [leave, leave, Function.update_of_ne different, put_comm different]

/-- Entering an iteration does not touch names other than the counter. -/
theorem Locals.enter_put {counter : Option String} {name : String} (apart : counter ≠ some name)
    (turn : Nat) (held : Option Literal) (locals : Locals) :
    Locals.enter (Function.update locals name held) counter turn =
      Function.update (locals.enter counter turn) name held := by
  cases counter with
  | none => rfl
  | some other =>
    have different : other ≠ name := fun equal => apart (congrArg some equal)
    exact Function.update_comm different.symm held _ locals

/-- Going on from a flow with another value for a name, when going on does not
depend on the name. -/
theorem Flow.next_put {name : String} {held : Option Literal} {following : Locals → Run Flow}
    (independent : ∀ locals, following (Function.update locals name held) =
      Flow.put name held <$> following locals) (flow : Flow) :
    (flow.put name held).next following = Flow.put name held <$> flow.next following := by
  cases flow with
  | onward locals => exact independent locals
  | returned value => rw [put, next, map_pure, put]

/-- Iterations do not depend on a name that neither test nor body depends on, or
that is the counter. -/
theorem loopTurns_put {counter : Option String} {test : Locals → Run Bool}
    {body spent : Locals → Run Flow} {name : String} {held : Option Literal}
    (testSame : counter ≠ some name → ∀ locals,
      test (Function.update locals name held) = test locals)
    (bodySame : counter ≠ some name → ∀ locals, body (Function.update locals name held) =
      Flow.put name held <$> body locals)
    (spentSame : ∀ locals, spent (Function.update locals name held) =
      Flow.put name held <$> spent locals) :
    ∀ (left turn : Nat) (locals : Locals),
      loopTurns counter test body spent left turn (Function.update locals name held) =
        Flow.put name held <$> loopTurns counter test body spent left turn locals := by
  intro left
  induction left with
  | zero => exact fun _ locals => spentSame locals
  | succ left ih =>
    intro turn locals
    by_cases counts : counter = some name
    · subst counts
      simp only [loopTurns, Locals.enter, Function.update_idem, map_bind]
      congr 1
      funext goesOn
      cases goesOn with
      | false => simp [Flow.put]
      | true =>
        simp only [if_true, map_bind, Flow.leave, Function.update_self]
        congr 1
        funext flow
        rw [← Flow.put_put name held (locals name), Flow.next_put (ih (turn + 1))]
    · simp only [loopTurns, Locals.enter_put counts, testSame counts, bodySame counts, map_bind]
      congr 1
      funext goesOn
      cases goesOn with
      | false => simp [Flow.put]
      | true =>
        simp only [if_true, map_bind, bind_map_left]
        congr 1
        funext flow
        rw [Flow.leave_put counts, Flow.next_put (ih (turn + 1))]

/-- A loop condition does not depend on names that it does not read. -/
theorem Expr.holds_put (setting : Setting) {condition : Option Expr} {name : String}
    (unread : name ∉ Args.reads condition.toList) (held : Option Literal) (locals : Locals) :
    Expr.holds setting condition (Function.update locals name held) =
      Expr.holds setting condition locals := by
  cases condition with
  | none => rfl
  | some e =>
    have unreadHere : name ∉ e.reads := by simpa using unread
    simp only [Expr.holds, Expr.value_put setting unreadHere]

/-- A statement that binds a name does not depend on its value before. -/
theorem Stmt.run_put_bound (setting : Setting) {s : Stmt} {name : String}
    (unused : name ∉ s.free) (binds : s.boundName? = some name) (held : Option Literal)
    (locals : Locals) :
    s.run setting (Function.update locals name held) = s.run setting locals := by
  cases s with
  | bind bound type value =>
    cases binds
    have unread : name ∉ value.reads := by simpa only [Stmt.free] using unused
    simp only [Stmt.run, Expr.value_put setting unread, Function.update_idem]
  | _ => simp [Stmt.boundName?] at binds

mutual

/-- A statement neither looks at nor changes a name that it does not use. -/
theorem Stmt.run_put (setting : Setting) {name : String} (held : Option Literal) :
    ∀ {s : Stmt}, name ∉ s.free → s.boundName? ≠ some name → ∀ locals : Locals,
      s.run setting (Function.update locals name held) =
        Flow.put name held <$> s.run setting locals
  | .bind bound _ value, unused, binds, locals => by
    have unread : name ∉ value.reads := by simpa only [Stmt.free] using unused
    have different : name ≠ bound := fun equal => binds (equal ▸ rfl)
    simp only [Stmt.run, Expr.value_put setting unread, map_bind, map_pure, Flow.put,
      Function.update_comm different]
  | .assign assigned value, unused, _, locals => by
    have split : name ≠ assigned ∧ name ∉ value.reads := by
      simpa only [Stmt.free, List.mem_cons, not_or] using unused
    simp only [Stmt.run, Expr.value_put setting split.2, map_bind, map_pure, Flow.put,
      Function.update_of_ne split.1.symm, Function.update_comm split.1]
  | .setGlobal _ value, unused, _, locals => by
    have unread : name ∉ value.reads := by simpa only [Stmt.free] using unused
    simp only [Stmt.run, Expr.value_put setting unread, map_bind, map_pure, Flow.put]
  | .store _ index value, unused, _, locals => by
    have split : name ∉ index.reads ∧ name ∉ value.reads := by
      simpa only [Stmt.free, List.mem_append, not_or] using unused
    simp only [Stmt.run, Expr.value_put setting split.1, Expr.value_put setting split.2, map_bind,
      map_pure, Flow.put]
  | .emit _ value, unused, _, locals => by
    have unread : name ∉ value.reads := by simpa only [Stmt.free] using unused
    simp only [Stmt.run, Expr.value_put setting unread, map_bind, map_pure, Flow.put]
  | .eval value, unused, _, locals => by
    have unread : name ∉ value.reads := by simpa only [Stmt.free] using unused
    simp only [Stmt.run, Expr.eval_put setting unread, map_bind, map_pure, Flow.put]
  | .branch cond thenBody elseBody _, unused, _, locals => by
    have split : name ∉ cond.reads ∧ name ∉ Block.free thenBody ∧ name ∉ Block.free elseBody := by
      simpa only [Stmt.free, List.mem_append, not_or] using unused
    simp only [Stmt.run, Expr.value_put setting split.1, map_bind,
      Block.run_put setting held split.2.1, Block.run_put setting held split.2.2]
    congr 1
    funext decision
    split <;> rfl
  | .loop counter bound condition body, unused, _, locals => by
    have inside : counter ≠ some name →
        name ∉ Args.reads condition.toList ∧ name ∉ Block.free body := by
      intro apart
      rw [Stmt.mem_free_loop] at unused
      exact ⟨fun read => unused ⟨.inl read, apart⟩, fun free => unused ⟨.inr free, apart⟩⟩
    have testSame := fun apart => Expr.holds_put setting (inside apart).1 held
    have bodySame := fun apart => Block.run_put setting held (inside apart).2
    simp only [Stmt.run, TripBound.turns]
    cases bound.limit? with
    | none => exact loopTurns_put testSame bodySame (fun _ => rfl) _ _ locals
    | some trips => exact loopTurns_put testSame bodySame (fun _ => rfl) _ _ locals
  | .ret none, _, _, _ => rfl
  | .ret (some value), unused, _, locals => by
    have unread : name ∉ value.reads := by simpa [Stmt.free] using unused
    simp only [Stmt.run, Expr.eval_put setting unread, Functor.map_map, Flow.put]

/-- A block neither looks at nor changes a name that is not free in it. -/
theorem Block.run_put (setting : Setting) {name : String} (held : Option Literal) :
    ∀ {block : Block}, name ∉ Block.free block → ∀ locals : Locals,
      Block.run setting block (Function.update locals name held) =
        Flow.put name held <$> Block.run setting block locals
  | [], _, _ => rfl
  | s :: rest, unused, locals => by
    rw [Block.mem_free_cons, not_or] at unused
    by_cases binds : s.boundName? = some name
    · simp only [Block.run, Stmt.run_put_bound setting unused.1 binds, map_bind]
      congr 1
      funext flow
      cases flow with
      | returned value => rfl
      | onward inner =>
        simp only [Flow.next_onward, binds, Flow.leave_some, Function.update_self, Functor.map_map,
          Flow.put_put]
    · have later : name ∉ Block.free rest := fun free => unused.2 ⟨free, binds⟩
      simp only [Block.run, Stmt.run_put setting held unused.1 binds, map_bind, bind_map_left]
      congr 1
      funext flow
      cases flow with
      | returned value => rfl
      | onward inner =>
        simp only [Flow.put_onward, Flow.next_onward, Block.run_put setting held later,
          Functor.map_map, Flow.leave_put binds]

end

/-! ## Blocks in a row -/

/-- A block can run in front of statements that do not use the names it binds. -/
theorem Block.run_append (setting : Setting) {first second : Block}
    (apart : ∀ name ∈ Block.boundNames first, name ∉ Block.free second) (locals : Locals) :
    Block.run setting (first ++ second) locals =
      Block.run setting first locals >>= fun flow => flow.next (Block.run setting second) := by
  induction first generalizing locals with
  | nil => simp [Block.run]
  | cons s rest ih =>
    have laterApart : ∀ name ∈ Block.boundNames rest, name ∉ Block.free second := by
      intro name bound
      refine apart name ?_
      rw [Block.boundNames, List.mem_filterMap] at bound ⊢
      obtain ⟨binder, listed, binds⟩ := bound
      exact ⟨binder, List.mem_cons_of_mem s listed, binds⟩
    simp only [List.cons_append, Block.run, bind_assoc]
    congr 1
    funext flow
    cases flow with
    | returned value => simp
    | onward inner =>
      simp only [Flow.next_onward, ih laterApart inner, map_bind, bind_map_left]
      congr 1
      funext after
      cases after with
      | returned value => cases s.boundName? <;> simp
      | onward left =>
        cases binds : s.boundName? with
        | none => simp
        | some name =>
          -- The name is given up before the second part instead of after it.
          have unused : name ∉ Block.free second := by
            refine apart name ?_
            rw [Block.boundNames, List.filterMap_cons_some binds]
            exact List.mem_cons_self
          simp only [Flow.next_onward, Flow.leave_some, Flow.put_onward,
            Block.run_put setting _ unused]

end Timebound
