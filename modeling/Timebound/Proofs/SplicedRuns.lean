import Mathlib.Data.List.Basic
import Timebound.Proofs.Invocation
import Timebound.Proofs.RenamedRuns
import Timebound.Proofs.Wording

/-!
# Bodies in place of calls

A call evaluates its arguments, runs the body of the callee on locals of its own and goes on
with the result. The same happens when the body stands in the block of the caller, with
parameters that are bound to the arguments and with all its local names marked, if the caller
uses no marked name and the body returns at its end only. Nothing of it is left behind:
marked names are given up at the end of the block, and a name that the callee uses without
binding it stays unbound (`Inlinable.run_expansion`).
-/

namespace Timebound

/-! ## Names in use -/

section Names

variable {name : String}

mutual

/-- The free names of a statement are among its local names. -/
theorem Stmt.mem_localNames_of_free : ∀ {s : Stmt}, name ∈ s.free → name ∈ s.localNames
  | .bind .., free => List.mem_cons_of_mem _ free
  | .assign .., free | .setGlobal .., free | .store .., free | .emit .., free | .eval _, free
  | .ret _, free => free
  | .branch _ thenBody elseBody _, free => by
    simp only [Stmt.free, Stmt.localNames, List.mem_append] at free ⊢
    exact free.imp_right (.imp Block.mem_localNames_of_free Block.mem_localNames_of_free)
  | .loop _ _ _ body, free => by
    have inside := (Stmt.mem_free_loop.mp free).1
    simp only [Stmt.localNames, List.mem_append]
    exact .inr (inside.imp_right Block.mem_localNames_of_free)

/-- The free names of a block are among its local names. -/
theorem Block.mem_localNames_of_free : ∀ {block : List Stmt}, name ∈ Block.free block →
    name ∈ Block.localNames block
  | [], free => free
  | s :: rest, free => by
    rw [Block.localNames, List.mem_append]
    exact (Block.mem_free_cons.mp free).imp Stmt.mem_localNames_of_free fun later =>
      Block.mem_localNames_of_free later.1

end

/-- The bound name of a statement is among its local names. -/
theorem Stmt.mem_localNames_of_bound {s : Stmt} (binds : s.boundName? = some name) :
    name ∈ s.localNames := by
  cases s with
  | bind bound type value =>
    cases binds
    exact List.mem_cons_self
  | _ => simp [Stmt.boundName?] at binds

/-- The names of the arguments of a call are among the local names of the statement. -/
theorem Stmt.mem_localNames_of_argument {s : Stmt} {callee : FunctionId} {args : List Expr}
    (whole : s.wholeCall? = some (callee, args)) (read : name ∈ Args.reads args) :
    name ∈ s.localNames := by
  unfold Stmt.wholeCall? at whole
  split at whole
  case h_4 => simp at whole
  all_goals
    cases whole
    simp [Stmt.localNames, read]

/-- Parameters use the names of their arguments. -/
theorem Block.mem_reads_of_free_params {label : String → String} {params : List Parameter}
    {args : List Expr} (free : name ∈ Block.free ((params.zip args).map fun (param, arg) =>
      .bind (label param.name) param.type arg)) : name ∈ Args.reads args := by
  induction params generalizing args with
  | nil => simp [Block.free] at free
  | cons param params ih =>
    cases args with
    | nil => simp [Block.free] at free
    | cons arg args =>
      rw [List.zip_cons_cons, List.map_cons, Block.mem_free_cons] at free
      rw [Args.reads_cons, List.mem_append]
      exact free.imp id fun later => ih later.1

/-- Parameters that take all arguments are bound. -/
theorem Block.boundNames_params {label : String → String} {params : List Parameter}
    {args : List Expr} (all : args.length = params.length) :
    Block.boundNames ((params.zip args).map fun (param, arg) =>
      .bind (label param.name) param.type arg) = params.map fun param => label param.name := by
  induction params generalizing args with
  | nil => simp [Block.boundNames]
  | cons param params ih =>
    cases args with
    | nil => simp at all
    | cons arg args =>
      rw [List.length_cons, List.length_cons, Nat.add_right_cancel_iff] at all
      have others := ih all
      unfold Block.boundNames at others ⊢
      simp only [List.zip_cons_cons, List.map_cons, List.filterMap_cons, Stmt.boundName?, others]

/-- What is left of a statement after its call uses names of the statement and of the
result. -/
theorem Stmt.mem_free_afterCall {s : Stmt} {result : Option Expr} {rest : Block}
    (left : s.afterCall? result = some rest) (free : name ∈ Block.free rest) :
    name ∈ s.localNames ∨ name ∈ Args.reads result.toList := by
  unfold Stmt.afterCall? at left
  split at left
  case h_5 => simp at left
  case h_4 =>
    cases left
    simp [Block.free] at free
  all_goals
    cases left
    simp only [Block.free, Stmt.free, List.filter_nil, List.append_nil, List.mem_cons] at free
    simp only [Stmt.localNames, Option.toList_some, Args.reads_cons, Args.reads_nil,
      List.append_nil, List.mem_cons]
    tauto

end Names

/-- Running a statement keeps every name that it neither uses nor binds. -/
theorem Stmt.run_keeps (setting : Setting) (s : Stmt) (locals : Locals) :
    Run.Always (fun flow => ∀ name, name ∉ s.localNames → flow.Keeps locals name)
      (s.run setting locals) := by
  intro world flow ended name unused
  have same := Stmt.run_put setting (locals name)
    (fun free => unused (Stmt.mem_localNames_of_free free))
    (fun binds => unused (Stmt.mem_localNames_of_bound binds)) locals
  rw [Function.update_eq_self] at same
  rw [same] at ended
  refine Run.Always.map (fun other => ?_) _ world flow ended
  cases other with
  | onward after => exact Function.update_self name (locals name) after
  | returned value => trivial

/-! ## Locals apart from marked names -/

/-- The names that are not marked. -/
def unmarked (label : String → String) : Set String := { name | ∀ old, label old ≠ name }

section Splice

variable {label : String → String} {setting : Setting} {caller renamed : Locals}

/-- Marked names can be set on one side. -/
theorem Locals.Agree.mark (agree : caller.Agree (unmarked label) id renamed) (name : String)
    (held : Option Literal) :
    caller.Agree (unmarked label) id (Function.update renamed (label name) held) := by
  intro other plain
  have apart : id other ≠ label name := fun same => plain name same.symm
  rw [Function.update_of_ne apart]
  exact agree other plain

/-- Marked names can be given up on one side. -/
theorem Flow.Agree.mark {first second : Flow} (agree : Flow.Agree (unmarked label) id first second)
    (name : String) (held : Option Literal) :
    Flow.Agree (unmarked label) id first (second.put (label name) held) := by
  cases agree with
  | onward agree => exact .onward (agree.mark name held)
  | returned value => exact .returned value

/-- An expression has the same value where the names it reads stand for the same. -/
theorem Expr.eval_agree {known : Set String} {e : Expr} (agree : caller.Agree known id renamed)
    (reads : ∀ name ∈ e.reads, name ∈ known) : e.eval setting renamed = e.eval setting caller := by
  have same := Expr.eval_rename setting e fun name read => agree name (reads name read)
  rwa [Expr.rename_id] at same

/-- A block runs alike where the names it uses stand for the same. -/
theorem Block.run_agree {known : Set String} {block : Block} (agree : caller.Agree known id renamed)
    (used : ∀ name ∈ Block.free block, name ∈ known) :
    Run.Rel (Flow.Agree known id) (Block.run setting block caller)
      (Block.run setting block renamed) := by
  have same := Block.run_rename setting Function.injective_id block used agree
  rwa [Block.rename_id] at same

/-- What comes after a scope does not depend on what is given up at its end. -/
theorem Flow.result_put (name : String) (held : Option Literal) (flow : Flow) :
    (flow.put name held).result = flow.result := by
  cases flow <;> rfl

/-! ## Spliced bodies -/

/-- A body that does not return before its end can be spliced under marked names into the
block of a caller. What follows there is related to what follows the end of the body. -/
theorem Block.run_splice (injective : Function.Injective label) {finish tail : Block}
    {goOn : Option Literal → Run Flow}
    (atEnd : ∀ locals renamed : Locals,
      (∀ name ∈ Block.free finish, locals name = renamed (label name)) →
        caller.Agree (unmarked label) id renamed →
          Run.Rel (Flow.Agree (unmarked label) id)
            (Block.run setting finish locals >>= fun flow => goOn flow.result)
            (Block.run setting tail renamed)) :
    ∀ (init : Block) {known : Set String} {locals renamed : Locals}, Block.returns init = false →
      (∀ name ∈ Block.free (init ++ finish), name ∈ known) → locals.Agree known label renamed →
        caller.Agree (unmarked label) id renamed →
          Run.Rel (Flow.Agree (unmarked label) id)
            (Block.run setting (init ++ finish) locals >>= fun flow => goOn flow.result)
            (Block.run setting (Block.rename label init ++ tail) renamed) := by
  intro init
  induction init with
  | nil =>
    intro known locals renamed _ used agree plain
    exact atEnd locals renamed (fun name free => agree name (used name free)) plain
  | cons s rest ih =>
    intro known locals renamed straight used agree plain
    rw [Block.returns, Bool.or_eq_false_iff] at straight
    have usedFirst := fun name free => used name (Block.mem_free_cons.mpr (.inl free))
    cases binds : s.boundName? with
    | none =>
      have usedLater := fun name free =>
        used name (Block.mem_free_cons.mpr (.inr ⟨free, by simp [binds]⟩))
      simp only [Block.rename, List.cons_append, Block.run, Stmt.boundName?_rename, binds,
        Option.map_none, Flow.leave_none, id_map, bind_assoc]
      have first := (Stmt.run_rename setting injective s binds usedFirst agree).and_always
        (Stmt.run_leaves setting s locals) (Stmt.run_keeps setting (s.rename label) renamed)
      refine first.bind fun flow other ended => ?_
      obtain ⟨agreeAfter, leaves, keeps⟩ := ended
      cases agreeAfter with
      | returned value => exact absurd (straight.1.symm.trans leaves) Bool.false_ne_true
      | @onward after renamedAfter agreeAfter =>
        refine ih straight.2 usedLater agreeAfter fun name isPlain => ?_
        have worded : (s.rename label).Worded (fun other => ∃ old, label old = other)
            fun _ => True := Stmt.worded_rename (fun old => ⟨old, rfl⟩) (fun _ => trivial) s
        have unused : name ∉ (s.rename label).localNames := by
          intro listed
          obtain ⟨old, marked⟩ := ((Stmt.worded_iff _).mp worded).1 name listed
          exact isPlain old marked
        exact (plain name isPlain).trans (Eq.symm (keeps name unused))
    | some name => cases s with
      | bind bound type value =>
        cases binds
        have knownInside : ∀ other ∈ Block.free (rest ++ finish), other ∈ insert name known := by
          intro other free
          by_cases same : other = name
          · exact .inl same
          · exact .inr (used other (Block.mem_free_cons.mpr (.inr ⟨free, fun binds =>
              same (Option.some.inj binds).symm⟩)))
        have same := Expr.value_rename setting agree usedFirst
        simp only [Block.rename, Stmt.rename, List.cons_append, Block.run, Stmt.run,
          Stmt.boundName?, same, bind_assoc, pure_bind, Flow.next_onward, Flow.leave_some,
          bind_map_left, Flow.result_put]
        refine .after _ fun held => ?_
        have later := ih straight.2 knownInside (agree.bind injective name (some held))
          (plain.mark name (some held))
        exact later.map_right fun _ _ inside => inside.mark name _
      | _ => simp [Stmt.boundName?] at binds

/-- Parameters that are bound under marked names hold the arguments. What follows is related
to what follows once the parameters are passed. -/
theorem Block.run_params (injective : Function.Injective label) {body : Block}
    (goOn : Locals → Run Flow) :
    ∀ (params : List Parameter) (args : List Expr) {known : Set String} {locals renamed : Locals},
      args.length = params.length → (∀ name ∈ Args.reads args, name ∈ unmarked label) →
        locals.Agree known label renamed → caller.Agree (unmarked label) id renamed →
          (∀ locals renamed : Locals,
            locals.Agree (known ∪ { name | name ∈ params.map Parameter.name }) label renamed →
              caller.Agree (unmarked label) id renamed →
                Run.Rel (Flow.Agree (unmarked label) id) (goOn locals)
                  (Block.run setting body renamed)) →
            Run.Rel (Flow.Agree (unmarked label) id)
              (Args.eval setting caller args >>= fun values =>
                goOn ((params.zip values).foldl (fun locals passed =>
                  Function.update locals passed.1.name (some passed.2)) locals))
              (Block.run setting ((params.zip args).map (fun (param, arg) =>
                .bind (label param.name) param.type arg) ++ body) renamed) := by
  intro params
  induction params with
  | nil =>
    intro args known locals renamed all _ agree plain atEnd
    rw [List.length_nil, List.length_eq_zero_iff] at all
    subst all
    simp only [Args.eval, pure_bind]
    exact atEnd locals renamed (by simpa using agree) plain
  | cons param params ih =>
    intro args known locals renamed all reads agree plain atEnd
    cases args with
    | nil => simp at all
    | cons arg args =>
      rw [List.length_cons, List.length_cons, Nat.add_right_cancel_iff] at all
      rw [Args.reads_cons, List.forall_mem_append] at reads
      have same : arg.eval setting renamed = arg.eval setting caller :=
        Expr.eval_agree plain reads.1
      simp only [Args.eval, List.zip_cons_cons, List.map_cons, List.cons_append, Block.run,
        Stmt.run, Stmt.boundName?, same, Expr.value, bind_assoc, pure_bind, Flow.next_onward,
        Flow.leave_some, List.foldl_cons]
      refine .after _ fun given => .after _ fun value => ?_
      refine (ih args all reads.2 (agree.bind injective param.name (some value))
        (plain.mark param.name (some value)) fun locals renamed inside => atEnd locals renamed
          fun name listed => inside name ?_).map_right fun _ _ ended => ended.mark param.name _
      rcases listed with old | passed
      · exact .inl (.inr old)
      · rcases List.mem_cons.mp passed with rfl | later
        · exact .inl (.inl rfl)
        · exact .inr later

/-! ## Calls -/

/-- What a statement that is nothing but a call does with the result, and others after it. -/
def Stmt.resume (setting : Setting) (post : Block) (caller : Locals) :
    Stmt → Option Literal → Run Flow
  | .bind name _ _, result => do
    let held ← Run.need .noValue result
    Flow.put name (caller name) <$> Block.run setting post (Function.update caller name (some held))
  | .assign name _, result => do
    let held ← Run.need .noValue result
    let _ ← Run.need .unboundLocal (caller name)
    Block.run setting post (Function.update caller name (some held))
  | _, _ => Block.run setting post caller

/-- A statement that is nothing but a call passes the arguments and resumes with the result. -/
theorem Stmt.run_wholeCall {s : Stmt} {callee : FunctionId} {args : List Expr}
    (whole : s.wholeCall? = some (callee, args)) (post : Block) (caller : Locals) :
    Block.run setting (s :: post) caller = Args.eval setting caller args >>= fun values =>
      setting.call callee values >>= fun result => s.resume setting post caller result := by
  unfold Stmt.wholeCall? at whole
  split at whole
  case h_4 => simp at whole
  all_goals
    cases whole
    simp only [Block.run, Stmt.run, Stmt.boundName?, Stmt.resume, Expr.value, Expr.eval, bind_assoc,
      pure_bind, Flow.next_onward, Flow.leave_some, Flow.leave_none, id_map]

/-- What is left of a statement after its call does with a marked result what the statement
does with the result of the callee. -/
theorem Stmt.run_afterCall {s : Stmt} {value : Option Expr} {rest post : Block}
    (left : s.afterCall? (value.map (Expr.rename label)) = some rest)
    (clear : ∀ name ∈ Block.localNames (s :: post), name ∈ unmarked label)
    {locals renamed : Locals} (agree : ∀ name ∈ Args.reads value.toList,
      locals name = renamed (label name)) (plain : caller.Agree (unmarked label) id renamed) :
    Run.Rel (Flow.Agree (unmarked label) id)
      (Block.run setting [.ret value] locals >>= fun flow =>
        s.resume setting post caller flow.result)
      (Block.run setting (rest ++ post) renamed) := by
  have later : ∀ name ∈ Block.free post, name ∈ unmarked label := fun name free =>
    clear name (List.mem_append_right _ (Block.mem_localNames_of_free free))
  cases value with
  | none =>
    cases s with
    | eval e =>
      cases left
      simp only [Block.run, Stmt.run, pure_bind, Flow.next_returned, Stmt.resume]
      exact Block.run_agree plain later
    | _ => simp [Stmt.afterCall?] at left
  | some e =>
    have reads : ∀ name ∈ e.reads, locals name = renamed (label name) := by simpa using agree
    have same := Expr.eval_rename setting e reads
    cases s with
    | bind name type call =>
      cases left
      simp only [Block.run, Stmt.run, bind_map_left, Flow.next_returned, pure_bind, Flow.result,
        Stmt.resume, List.cons_append, List.nil_append, Expr.value, same, bind_assoc,
        Stmt.boundName?, Flow.next_onward, Flow.leave_some]
      refine .after _ fun result => .after _ fun held => ?_
      have inside := plain.bind Function.injective_id name (some held)
      refine (Block.run_agree inside fun other free => .inr (later other free)).map ?_
      exact fun _ _ ended => ended.unbind Function.injective_id plain
    | assign name call =>
      cases left
      have target : name ∈ unmarked label := clear name List.mem_cons_self
      have held := plain name target
      simp only [Block.run, Stmt.run, bind_map_left, Flow.next_returned, pure_bind, Flow.result,
        Stmt.resume, List.cons_append, List.nil_append, Expr.value, same, bind_assoc,
        Stmt.boundName?, Flow.next_onward, Flow.leave_none, id_map, held]
      refine .after _ fun result => .after _ fun held => .after _ fun _ => ?_
      exact Block.run_agree (plain.update Function.injective_id.injOn target (some held)) later
    | eval call =>
      cases left
      simp only [Block.run, Stmt.run, bind_map_left, Flow.next_returned, pure_bind, Stmt.resume,
        List.cons_append, List.nil_append, same, bind_assoc, Stmt.boundName?, Flow.next_onward,
        Flow.leave_none, id_map]
      exact .after _ fun _ => Block.run_agree plain later
    | _ => simp [Stmt.afterCall?] at left

/-- As many values as arguments are passed. -/
theorem Args.eval_length (args : List Expr) (caller : Locals) :
    Run.Always (fun values => values.length = args.length) (Args.eval setting caller args) := by
  induction args with
  | nil => exact .pure rfl
  | cons arg args ih =>
    simp only [Args.eval]
    refine .after fun value => ih.bind fun values all => .pure ?_
    rw [List.length_cons, List.length_cons, all]

end Splice

/-! ## Ends of bodies -/

namespace Block

variable {body init : Block} {value : Option Expr}

/-- A body ends with a return, or it is taken to return nothing at its end. -/
theorem splitEnd_cases (split : splitEnd body = (init, value)) :
    body = init ++ [.ret value] ∨ (body = init ∧ value = none) := by
  unfold splitEnd at split
  split at split
  · rename_i last
    cases split
    obtain ⟨before, rfl⟩ := List.getLast?_eq_some_iff.mp last
    rw [List.dropLast_concat]
    exact .inl rfl
  · cases split
    exact .inr ⟨rfl, rfl⟩

/-- The result of a body does not depend on whether a return at its end is written out. -/
theorem result_splitEnd (setting : Setting) (split : splitEnd body = (init, value))
    (locals : Locals) :
    Flow.result <$> run setting body locals =
      Flow.result <$> run setting (init ++ [.ret value]) locals := by
  rcases splitEnd_cases split with rfl | ⟨rfl, rfl⟩
  · rfl
  · rw [run_append setting (fun _ _ => by simp [free, Stmt.free]), map_bind, map_eq_pure_bind]
    congr 1
    funext flow
    cases flow <;> rfl

/-- A return at the end of a body that is written out uses no further names. -/
theorem mem_free_of_splitEnd (split : splitEnd body = (init, value)) {name : String}
    (used : name ∈ free (init ++ [.ret value])) : name ∈ free body := by
  rcases splitEnd_cases split with rfl | ⟨rfl, rfl⟩
  · exact used
  · simpa [mem_free_append, free, Stmt.free] using used

end Block

/-! ## Expansions of calls -/

/-- The names that a function uses without binding them. -/
def Function.unboundNames (function : Function) : List String :=
  (Block.free function.body).filter fun name => name ∉ function.params.map Parameter.name

namespace Inlinable

/-- Marked names are kept apart. -/
theorem localName_injective (target : Inlinable) (site : Nat) :
    Function.Injective (target.localName site) := by
  intro first second same
  exact String.append_right_inj _ |>.mp same

variable {target : Inlinable} {site : Nat} {setting : Setting} {caller : Locals} {s : Stmt}
  {callee : FunctionId} {args : List Expr} {rest post : Block}
  (split : Block.splitEnd target.function.body = (target.init, target.value))
  (straight : Block.returns target.init = false)
  (whole : s.wholeCall? = some (callee, args))
  (left : s.afterCall? (target.result site) = some rest)
  (all : args.length = target.function.params.length)
  (calls : ∀ values, setting.call callee values = target.function.activate setting values)
  (clear : ∀ name ∈ Block.localNames (s :: post), name ∈ unmarked (target.localName site))
  (unbound : ∀ name ∈ target.function.unboundNames, caller (target.localName site name) = none)

include split straight whole left all calls clear unbound

/-- An expansion in front of others runs as the call does, apart from marked names. -/
theorem agree_expansion :
    Run.Rel (Flow.Agree (unmarked (target.localName site)) id)
      (Block.run setting (s :: post) caller)
      (Block.run setting (target.statements site args ++ rest ++ post) caller) := by
  have injective := target.localName_injective site
  have passed : Block.run setting (s :: post) caller =
      Args.eval setting caller args >>= fun values =>
        Block.run setting (target.init ++ [.ret target.value])
          (.ofArgs target.function.params values) >>= fun flow =>
            s.resume setting post caller flow.result := by
    rw [Stmt.run_wholeCall whole]
    refine Run.bind_congr_of_always (Args.eval_length args caller) fun values count => ?_
    have fits : target.function.params.length = values.length := by omega
    rw [calls, Function.activate, Block.activate, if_pos fits, Block.result_splitEnd setting split,
      bind_map_left]
  have reads : ∀ name ∈ Args.reads args, name ∈ unmarked (target.localName site) := by
    intro name read
    exact clear name (List.mem_append_left _ (Stmt.mem_localNames_of_argument whole read))
  -- at first the callee knows the names that are unbound under their marked names
  have start : Locals.Agree { name | caller (target.localName site name) = none }
      (target.localName site) (fun _ => none) caller := fun _ missing => missing.symm
  have same : caller.Agree (unmarked (target.localName site)) id caller := fun _ _ => rfl
  have body (locals renamed : Locals)
      (agree : locals.Agree ({ name | caller (target.localName site name) = none } ∪
        { name | name ∈ target.function.params.map Parameter.name })
        (target.localName site) renamed)
      (plain : caller.Agree (unmarked (target.localName site)) id renamed) :
      Run.Rel (Flow.Agree (unmarked (target.localName site)) id)
        (Block.run setting (target.init ++ [.ret target.value]) locals >>= fun flow =>
          s.resume setting post caller flow.result)
        (Block.run setting
          (Block.rename (target.localName site) target.init ++ (rest ++ post)) renamed) := by
    refine Block.run_splice injective (fun locals renamed agree plain => ?_) target.init straight
      (fun name used => ?_) agree plain
    · have known : ∀ name ∈ Args.reads target.value.toList, locals name =
          renamed (target.localName site name) := fun name read =>
        agree name (by simpa [Block.free, Stmt.free] using read)
      exact Stmt.run_afterCall left clear known plain
    · by_cases param : name ∈ target.function.params.map Parameter.name
      · exact .inr param
      · have free := Block.mem_free_of_splitEnd split used
        exact .inl (unbound name (List.mem_filter.mpr ⟨free, by simpa using param⟩))
  have spliced := Block.run_params injective _ target.function.params args all reads start same body
  rw [passed, statements, List.append_assoc, List.append_assoc]
  exact spliced

omit straight calls unbound in
/-- An expansion uses no marked names that it does not bind, apart from those that the callee
uses without binding them. -/
theorem not_mem_free_expansion {name : String} (bound : name ∉ target.function.unboundNames) :
    target.localName site name ∉ Block.free (target.statements site args ++ rest ++ post) := by
  have injective := target.localName_injective site
  have plain {listed : String} (used : listed ∈ Block.localNames (s :: post)) :
      listed ≠ target.localName site name := fun same => clear listed used name same.symm
  intro used
  rw [statements, List.append_assoc, List.append_assoc, Block.mem_free_append] at used
  refine bound (List.mem_filter.mpr ?_)
  rcases used with argument | ⟨inside, notParam⟩
  · have read := Block.mem_reads_of_free_params argument
    exact absurd rfl (plain (List.mem_append_left _ (Stmt.mem_localNames_of_argument whole read)))
  · have free : name ∈ Block.free (target.init ++ [.ret target.value]) := by
      rw [Block.mem_free_append]
      rcases Block.mem_free_append.mp inside with early | ⟨late, notBound⟩
      · rw [Block.free_rename injective, List.mem_map_of_injective injective] at early
        exact .inl early
      · rw [Block.boundNames_rename, List.mem_map_of_injective injective] at notBound
        refine .inr ⟨?_, notBound⟩
        rcases Block.free_append late with given | after
        · rcases Stmt.mem_free_afterCall left given with own | read
          · exact absurd rfl (plain (List.mem_append_left _ own))
          · rw [result, Args.reads_map_toList, List.mem_map_of_injective injective] at read
            simpa [Block.free, Stmt.free] using read
        · exact absurd rfl (plain (List.mem_append_right _ (Block.mem_localNames_of_free after)))
    have param : name ∉ target.function.params.map Parameter.name := by
      rw [Block.boundNames_params all] at notParam
      intro listed
      obtain ⟨passed, member, rfl⟩ := List.mem_map.mp listed
      exact notParam (List.mem_map.mpr ⟨passed, member, rfl⟩)
    exact ⟨Block.mem_free_of_splitEnd split free, by simpa using param⟩

/-- An expansion in front of others runs as the call does. -/
theorem run_expansion :
    Block.run setting (target.statements site args ++ rest ++ post) caller =
      Block.run setting (s :: post) caller := by
  have runs := agree_expansion split straight whole left all calls clear unbound
  have kept := runs.and_always (Block.run_keeps setting (s :: post) caller)
    ((Block.run_keeps setting (target.statements site args ++ rest ++ post) caller).and
      (Block.run_leaves setting (target.statements site args ++ rest ++ post) caller))
  refine (Run.Rel.eq (kept.mono fun first second ended => ?_)).symm
  obtain ⟨agree, keepsFirst, keepsSecond, leaves⟩ := ended
  cases agree with
  | returned value => rfl
  | @onward after renamed agree =>
    congr 1
    funext name
    by_cases plain : name ∈ unmarked (target.localName site)
    · exact agree name plain
    · obtain ⟨old, rfl⟩ : ∃ old, target.localName site old = name := by
        simpa [unmarked] using plain
      have unused : target.localName site old ∉ Block.free (s :: post) := fun free =>
        clear _ (Block.mem_localNames_of_free free) old rfl
      have before : after (target.localName site old) = caller (target.localName site old) :=
        keepsFirst _ unused
      rw [before]
      by_cases missing : old ∈ target.function.unboundNames
      · have absent := unbound old missing
        rw [absent]
        by_contra bound
        exact leaves (fun none => bound none.symm) absent
      · exact Eq.symm (keepsSecond _ (not_mem_free_expansion split whole left all clear missing))

end Inlinable

end Timebound
