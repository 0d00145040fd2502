import Timebound.Proofs.EffectRewrites

/-!
# Effects of expanded calls

Expanding calls keeps the effects of a block where calls stand for the bodies that are
put in their place and pass an argument for every parameter (`Faithful`). It adds calls
of those bodies only (`ComesWith`). When calls are faithful is a matter of the program.
-/

namespace Timebound

/-! ## Statements that are calls -/

/-- The calls of arguments. -/
def Args.callShapes (args : List Expr) : List (FunctionId × Nat) :=
  (Args.nodes args).filterMap Expr.callShape?

@[simp] theorem Args.callShapes_cons (arg : Expr) (args : List Expr) :
    Args.callShapes (arg :: args) = arg.callShapes ++ Args.callShapes args := by
  simp [Args.callShapes, Args.nodes, Expr.callShapes]

/-- The calls of a call are itself and those of its arguments. -/
@[simp] theorem Expr.callShapes_call (callee : FunctionId) (args : List Expr) :
    (Expr.call callee args).callShapes = (callee, args.length) :: Args.callShapes args := rfl

/-- A statement that is nothing but a call has the effects and the calls of the call. -/
theorem Stmt.eq_of_wholeCall (opened : FunctionId → Option (Trace → Trace)) {s : Stmt}
    {callee : FunctionId} {args : List Expr} (whole : s.wholeCall? = some (callee, args)) :
    s.effects opened = (Expr.call callee args).effects opened ∧
      s.callShapes = (Expr.call callee args).callShapes := by
  unfold Stmt.wholeCall? at whole
  split at whole
  case h_4 => simp at whole
  all_goals
    cases whole
    exact ⟨rfl, rfl⟩

/-- What is left of a statement after its call has the effects and the calls of the
result. -/
theorem Stmt.afterCall?_eq (opened : FunctionId → Option (Trace → Trace)) {s : Stmt}
    {result : Option Expr} {rest : Block} (left : s.afterCall? result = some rest) :
    Block.effects opened rest = Args.effects opened result.toList ∧
      Block.callShapes rest = Expr.optionalCallShapes result := by
  unfold Stmt.afterCall? at left
  split at left
  case h_5 => simp at left
  case h_4 =>
    cases left
    exact ⟨rfl, rfl⟩
  all_goals
    cases left
    refine ⟨rfl, ?_⟩
    simp [Expr.optionalCallShapes, Expr.callShapes]

/-- A statement is left alone, or it is a call and the body of the callee takes its
place. -/
theorem Stmt.inlineCall_cases (find : FunctionId → Option Inlinable) (s : Stmt) (site : Nat) :
    s.inlineCall find site = .unchanged s site ∨ ∃ callee args target rest,
      s.wholeCall? = some (callee, args) ∧ find callee = some target ∧
        s.afterCall? (target.result site) = some rest ∧
          s.inlineCall find site = ⟨target.statements site args ++ rest, nextSite site, 1⟩ := by
  unfold Stmt.inlineCall
  cases whole : s.wholeCall? with
  | none => exact .inl rfl
  | some call =>
    cases found : find call.1 with
    | none => exact .inl (by simp [found])
    | some target =>
      cases left : s.afterCall? (target.result site) with
      | none => exact .inl (by simp [found, left])
      | some rest =>
        exact .inr ⟨call.1, call.2, target, rest, rfl, found, left, by simp [found, left]⟩

namespace Inlinable

variable (callee : Inlinable)

/-- The calls of a body that can stand in for a call. -/
def callShapes : List (FunctionId × Nat) :=
  Block.callShapes callee.init ++ Expr.optionalCallShapes callee.value

/-- Parameters take on calls of arguments only. -/
theorem callShapes_params (label : String → String) (params : List Parameter) (args : List Expr) :
    Block.callShapes ((params.zip args).map fun (param, arg) =>
      .bind (label param.name) param.type arg) ⊆ Args.callShapes args := by
  induction params generalizing args with
  | nil => simp
  | cons param params ih =>
    cases args with
    | nil => simp
    | cons arg args =>
      have others := ih args
      simp only [List.zip_cons_cons, List.map_cons, Block.callShapes_cons, Stmt.callShapes_bind,
        Args.callShapes_cons]
      grind

/-- The calls of an expansion are those of the arguments and of the body. -/
theorem callShapes_statements (site : Nat) (args : List Expr) :
    Block.callShapes (callee.statements site args) ⊆
      Args.callShapes args ++ Block.callShapes callee.init := by
  have passed := callShapes_params (callee.localName site) callee.function.params args
  unfold statements
  rw [Block.callShapes_append, Block.callShapes_rename]
  grind

variable (opened : FunctionId → Option (Trace → Trace))

/-- The effects of a body that can stand in for a call. -/
def effects (trace : Trace) : Trace :=
  Args.effects opened callee.value.toList (Block.effects opened callee.init trace)

/-- Parameters that take all arguments take on their effects. -/
theorem effects_params (label : String → String) {params : List Parameter} {args : List Expr}
    (all : args.length = params.length) (trace : Trace) :
    Block.effects opened ((params.zip args).map fun (param, arg) =>
      .bind (label param.name) param.type arg) trace = Args.effects opened args trace := by
  induction params generalizing args trace with
  | nil =>
    rw [List.length_nil, List.length_eq_zero_iff] at all
    rw [all]
    rfl
  | cons param params ih =>
    cases args with
    | nil => simp at all
    | cons arg args =>
      rw [List.length_cons, List.length_cons, Nat.add_right_cancel_iff] at all
      rw [List.zip_cons_cons, List.map_cons, Block.effects, Args.effects, ih all]
      rfl

/-- An expansion has the effects of the arguments, then those of the body. -/
theorem effects_statements {site : Nat} {args : List Expr}
    (all : args.length = callee.function.params.length) (trace : Trace) :
    Block.effects opened (callee.statements site args) trace =
      Block.effects opened callee.init (Args.effects opened args trace) := by
  unfold statements
  rw [Block.effects_append, Block.effects_rename, effects_params opened _ all]

end Inlinable

/-- Calls that may be expanded pass an argument for every parameter and are replaced by
the body that stands in for them. -/
def Faithful (opened : FunctionId → Option (Trace → Trace)) (find : FunctionId → Option Inlinable)
    (shapes : List (FunctionId × Nat)) : Prop :=
  ∀ callee count target, (callee, count) ∈ shapes → find callee = some target →
    count = target.function.params.length ∧ opened callee = some (target.effects opened)

/-- A call that is there before the expansion or comes with the body of a callee. -/
def ComesWith (find : FunctionId → Option Inlinable) (shapes : List (FunctionId × Nat))
    (shape : FunctionId × Nat) : Prop :=
  shape ∈ shapes ∨ ∃ callee count target, (callee, count) ∈ shapes ∧ find callee = some target ∧
    shape ∈ target.callShapes

section Inlining

variable {opened : FunctionId → Option (Trace → Trace)} {find : FunctionId → Option Inlinable}

/-- Faithful calls are faithful in every part. -/
theorem Faithful.mono {shapes fewer : List (FunctionId × Nat)}
    (faithful : Faithful opened find shapes) (inside : fewer ⊆ shapes) :
    Faithful opened find fewer :=
  fun callee count target listed found => faithful callee count target (inside listed) found

/-- What comes with part of the calls comes with all of them. -/
theorem ComesWith.mono {shapes fewer : List (FunctionId × Nat)} {shape : FunctionId × Nat}
    (comes : ComesWith find fewer shape) (inside : fewer ⊆ shapes) :
    ComesWith find shapes shape := by
  rcases comes with listed | ⟨callee, count, target, listed, found, called⟩
  · exact .inl (inside listed)
  · exact .inr ⟨callee, count, target, inside listed, found, called⟩

/-- Expanding a faithful call keeps the effects of its statement. -/
theorem Stmt.effects_inlineCall {s : Stmt} (faithful : Faithful opened find s.callShapes)
    (site : Nat) : Block.effects opened (s.inlineCall find site).body = s.effects opened := by
  rcases s.inlineCall_cases find site with
    alone | ⟨callee, args, target, rest, whole, found, left, made⟩
  · rw [alone]
    rfl
  · obtain ⟨sameEffects, sameCalls⟩ := Stmt.eq_of_wholeCall opened whole
    have called : (callee, args.length) ∈ s.callShapes := by
      rw [sameCalls, Expr.callShapes_call]
      exact List.mem_cons_self
    obtain ⟨all, replaced⟩ := faithful callee args.length target called found
    have restEffects := (Stmt.afterCall?_eq opened left).1
    funext trace
    rw [made, Block.effects_append, target.effects_statements opened all, restEffects,
      Inlinable.result, Args.effects_rename_toList, sameEffects, Expr.effects, replaced]
    rfl

/-- Expanding a call adds calls of the callee only. -/
theorem Stmt.callShapes_inlineCall {s : Stmt} {site : Nat} {shape : FunctionId × Nat}
    (listed : shape ∈ Block.callShapes (s.inlineCall find site).body) :
    ComesWith find s.callShapes shape := by
  rcases s.inlineCall_cases find site with
    alone | ⟨callee, args, target, rest, whole, found, left, made⟩
  · rw [alone, Inlined.body_unchanged, Block.callShapes_cons, Block.callShapes_nil,
      List.append_nil] at listed
    exact .inl listed
  · have sameCalls := (Stmt.eq_of_wholeCall (fun _ => none) whole).2
    have restCalls := (Stmt.afterCall?_eq (fun _ => none) left).2
    rw [Inlinable.result, Expr.optionalCallShapes_rename] at restCalls
    rw [made, Block.callShapes_append, restCalls, List.mem_append] at listed
    rw [sameCalls, Expr.callShapes_call]
    rcases listed with early | late
    · rcases List.mem_append.mp (target.callShapes_statements site args early) with passed | inner
      · exact .inl (List.mem_cons_of_mem _ passed)
      · exact .inr ⟨callee, args.length, target, List.mem_cons_self, found,
          List.mem_append_left _ inner⟩
    · exact .inr ⟨callee, args.length, target, List.mem_cons_self, found,
        List.mem_append_right _ late⟩

mutual

/-- Expanding faithful calls keeps the effects of a statement. -/
theorem Stmt.effects_inline : ∀ (s : Stmt) (site : Nat), Faithful opened find s.callShapes →
    Block.effects opened (s.inline find site).body = s.effects opened
  | .bind .., site, faithful | .assign .., site, faithful | .eval _, site, faithful =>
    Stmt.effects_inlineCall faithful site
  | .setGlobal .., _, _ | .store .., _, _ | .emit .., _, _ | .ret _, _, _ => rfl
  | .branch cond thenBody elseBody likelihood, site, faithful => by
    rw [Stmt.callShapes_branch] at faithful
    have thenSame := Block.effects_inline thenBody site (faithful.mono (by grind))
    have elseSame := Block.effects_inline elseBody (Block.inline find thenBody site).next
      (faithful.mono (by grind))
    funext trace
    simp only [Stmt.inline, Block.effects, Stmt.effects, thenSame, elseSame]
  | .loop counter bound condition body, site, faithful => by
    rw [Stmt.callShapes_loop] at faithful
    have inner := Block.effects_inline body site (faithful.mono (by grind))
    funext trace
    simp only [Stmt.inline, Block.effects, Stmt.effects, inner]

/-- Expanding faithful calls keeps the effects of a block. -/
theorem Block.effects_inline : ∀ (block : Block) (site : Nat),
    Faithful opened find (Block.callShapes block) →
      Block.effects opened (Block.inline find block site).body = Block.effects opened block
  | [], _, _ => rfl
  | s :: rest, site, faithful => by
    rw [Block.callShapes_cons] at faithful
    have first := Stmt.effects_inline s site (faithful.mono (by grind))
    have others := Block.effects_inline rest (s.inline find site).next (faithful.mono (by grind))
    funext trace
    simp only [Block.inline, Block.effects_append, Block.effects, first, others]

end

mutual

/-- Expanding the calls of a statement adds calls of callees only. -/
theorem Stmt.callShapes_inline : ∀ (s : Stmt) (site : Nat) (shape : FunctionId × Nat),
    shape ∈ Block.callShapes (s.inline find site).body → ComesWith find s.callShapes shape
  | .bind .., site, _, listed | .assign .., site, _, listed | .eval _, site, _, listed =>
    Stmt.callShapes_inlineCall listed
  | .setGlobal .., _, _, listed | .store .., _, _, listed | .emit .., _, _, listed
  | .ret _, _, _, listed => by
    simp only [Stmt.inline, Inlined.body_unchanged, Block.callShapes_cons, Block.callShapes_nil,
      List.append_nil] at listed
    exact .inl listed
  | .branch cond thenBody elseBody likelihood, site, shape, listed => by
    simp only [Stmt.inline, Block.callShapes_cons, Block.callShapes_nil, List.append_nil,
      Stmt.callShapes_branch, List.mem_append] at listed
    rw [Stmt.callShapes_branch]
    rcases listed with decided | inThen | inElse
    · exact .inl (List.mem_append_left _ decided)
    · exact (Block.callShapes_inline thenBody site shape inThen).mono (by grind)
    · exact (Block.callShapes_inline elseBody _ shape inElse).mono (by grind)
  | .loop counter bound condition body, site, shape, listed => by
    simp only [Stmt.inline, Block.callShapes_cons, Block.callShapes_nil, List.append_nil,
      Stmt.callShapes_loop, List.mem_append] at listed
    rw [Stmt.callShapes_loop]
    rcases listed with decided | inner
    · exact .inl (List.mem_append_left _ decided)
    · exact (Block.callShapes_inline body site shape inner).mono (by grind)

/-- Expanding the calls of a block adds calls of callees only. -/
theorem Block.callShapes_inline : ∀ (block : Block) (site : Nat) (shape : FunctionId × Nat),
    shape ∈ Block.callShapes (Block.inline find block site).body →
      ComesWith find (Block.callShapes block) shape
  | [], _, _, listed => .inl listed
  | s :: rest, site, shape, listed => by
    simp only [Block.inline, Block.callShapes_append, List.mem_append] at listed
    rw [Block.callShapes_cons]
    rcases listed with first | others
    · exact (Stmt.callShapes_inline s site shape first).mono (by grind)
    · exact (Block.callShapes_inline rest _ shape others).mono (by grind)

end

/-- A body is what comes before its final return, followed by the returned value. -/
theorem Block.effects_splitEnd (opened : FunctionId → Option (Trace → Trace)) (body : Block)
    (trace : Trace) :
    Block.effects opened body trace =
      Args.effects opened (Block.splitEnd body).2.toList
        (Block.effects opened (Block.splitEnd body).1 trace) ∧
      Block.callShapes body = Block.callShapes (Block.splitEnd body).1 ++
        Expr.optionalCallShapes (Block.splitEnd body).2 := by
  unfold Block.splitEnd
  split
  · rename_i value last
    obtain ⟨init, rfl⟩ := List.getLast?_eq_some_iff.mp last
    simp only [List.dropLast_concat]
    constructor
    · rw [Block.effects_append]
      rfl
    · rw [Block.callShapes_append, Block.callShapes_cons, Block.callShapes_nil, List.append_nil,
        Stmt.callShapes_ret]
  · exact ⟨rfl, (List.append_nil _).symm⟩

end Inlining

end Timebound
