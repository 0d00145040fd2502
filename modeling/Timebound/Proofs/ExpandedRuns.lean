import Timebound.Proofs.CallDepth
import Timebound.Proofs.FreshNames
import Timebound.Proofs.SplicedRuns

/-!
# Expansions keep the meaning of bodies

An expansion can stand anywhere in a body: in front of other statements and after them, in an
arm, in a loop that runs it over and over. What surrounds it uses no marked name, so it finds
those names as they were at the start (`Hosts`). In the program the callee is one level less
deep when it is expanded. Apart from that the body sends the same values, leaves the same
globals, and gives the same result or stops for the same reason
(`Program.expansion_keeps_meaning`).
-/

namespace Timebound

/-! ## Blocks in each other's place -/

/-- A block that uses none of the marked names. -/
def Block.Clear (marked : Set String) (block : Block) : Prop :=
  ∀ name ∈ Block.localNames block, name ∉ marked

/-- Locals without certain names. -/
def Locals.Lacks (missing : Set String) (locals : Locals) : Prop :=
  ∀ name ∈ missing, locals name = none

/-- A block that runs as another one in front of statements without marked names, where
certain names are not bound. -/
def Block.Replaces (setting : Setting) (marked missing : Set String) (new old : Block) : Prop :=
  ∀ post : Block, Block.Clear marked post → ∀ locals : Locals, locals.Lacks missing →
    Block.run setting (new ++ post) locals = Block.run setting (old ++ post) locals

section Places

variable {setting : Setting} {marked missing : Set String} {first second new old : Block} {s : Stmt}

namespace Block

/-- Parts of blocks without marked names have none. -/
theorem clear_append :
    Clear marked (first ++ second) ↔ Clear marked first ∧ Clear marked second := by
  have names : Block.localNames (first ++ second) =
      Block.localNames first ++ Block.localNames second := by
    induction first with
    | nil => rfl
    | cons s rest ih => rw [List.cons_append, localNames, localNames, ih, List.append_assoc]
  unfold Clear
  rw [names, List.forall_mem_append]

/-- A statement and those after it have no marked names if a block has none. -/
theorem clear_cons : Clear marked (s :: first) ↔ Clear marked [s] ∧ Clear marked first := by
  rw [← clear_append, List.singleton_append]

/-- A statement without marked names leaves names unbound that are marked. -/
theorem Clear.lacks_after (within : missing ⊆ marked) (clear : Clear marked [s]) {locals : Locals}
    (lacks : locals.Lacks missing) :
    Run.Always (fun flow => ∀ after, flow = .onward after → after.Lacks missing)
      (s.run setting locals) := by
  refine (Stmt.run_keeps setting s locals).mono fun flow keeps after onward name absent => ?_
  subst onward
  have unused : name ∉ s.localNames := fun used =>
    clear name (List.mem_append_left _ used) (within absent)
  exact (keeps name unused).trans (lacks name absent)

/-- Blocks replace each other after a statement without marked names. -/
theorem Replaces.behind_one (within : missing ⊆ marked) (clear : Clear marked [s])
    (same : Replaces setting marked missing new old) :
    Replaces setting marked missing (s :: new) (s :: old) := by
  intro post plain locals lacks
  simp only [List.cons_append, run]
  refine Run.bind_congr_of_always (clear.lacks_after within lacks) fun flow after => ?_
  cases flow with
  | returned value => rfl
  | onward inner => rw [Flow.next_onward, Flow.next_onward, same post plain inner (after inner rfl)]

/-- Statements replace each other when they run alike and bind nothing. -/
theorem Replaces.of_run {newStmt oldStmt : Stmt} (bindsNew : newStmt.boundName? = none)
    (bindsOld : oldStmt.boundName? = none) (same : ∀ locals : Locals, locals.Lacks missing →
      newStmt.run setting locals = oldStmt.run setting locals) :
    Replaces setting marked missing [newStmt] [oldStmt] := by
  intro post _ locals lacks
  simp only [List.cons_append, List.nil_append, run, bindsNew, bindsOld, same locals lacks]

/-- Blocks that replace each other run alike. -/
theorem Replaces.run_eq (same : Replaces setting marked missing new old) {locals : Locals}
    (lacks : locals.Lacks missing) : run setting new locals = run setting old locals := by
  have alone := same [] (by simp [Clear, localNames]) locals lacks
  rwa [List.append_nil, List.append_nil] at alone

end Block

/-- Iterations are alike when bodies are, as long as names stay unbound. -/
theorem loopTurns_congr {counter : Option String} {test : Locals → Run Bool}
    {body other spent : Locals → Run Flow}
    (same : ∀ (turn : Nat) (locals : Locals), locals.Lacks missing →
      body (locals.enter counter turn) = other (locals.enter counter turn))
    (keeps : ∀ (turn : Nat) (locals : Locals), locals.Lacks missing →
      Run.Always (fun flow => ∀ after, flow.leave counter locals = .onward after →
        after.Lacks missing) (other (locals.enter counter turn))) (left : Nat) :
    ∀ (turn : Nat) (locals : Locals), locals.Lacks missing →
      loopTurns counter test body spent left turn locals =
        loopTurns counter test other spent left turn locals := by
  induction left with
  | zero => exact fun _ _ _ => rfl
  | succ left ih =>
    intro turn locals lacks
    simp only [loopTurns, same turn locals lacks]
    congr 1
    funext goesOn
    cases goesOn with
    | false => rfl
    | true =>
      refine Run.bind_congr_of_always (keeps turn locals lacks) fun flow after => ?_
      generalize flow.leave counter locals = ended at after
      cases ended with
      | returned value => rfl
      | onward inner => exact ih (turn + 1) inner (after inner rfl)

variable {counter : Option String} {locals : Locals}

/-- Entering an iteration binds no name other than the counter. -/
theorem Locals.Lacks.enter (lacks : locals.Lacks missing)
    (apart : ∀ name ∈ missing, counter ≠ some name) (turn : Nat) :
    (locals.enter counter turn).Lacks missing := by
  intro name absent
  cases counter with
  | none => exact lacks name absent
  | some other =>
    have different : name ≠ other := fun same => apart name absent (congrArg some same.symm)
    exact (Function.update_of_ne different _ locals).trans (lacks name absent)

/-- Leaving an iteration binds no name other than the counter. -/
theorem Locals.Lacks.leave {flow : Flow} {after : Locals}
    (inside : ∀ inner, flow = .onward inner → inner.Lacks missing)
    (apart : ∀ name ∈ missing, counter ≠ some name)
    (left : flow.leave counter locals = .onward after) : after.Lacks missing := by
  intro name absent
  cases counter with
  | none => exact inside after left name absent
  | some other =>
    have different : name ≠ other := fun same => apart name absent (congrArg some same.symm)
    cases flow with
    | returned value => cases left
    | onward inner =>
      cases left
      exact (Function.update_of_ne different _ inner).trans (inside inner rfl name absent)

/-- Loops are alike when their bodies replace each other. -/
theorem Stmt.run_loop_replaced (within : missing ⊆ marked) {bound : TripBound}
    {condition : Option Expr} (clear : Block.Clear marked [.loop counter bound condition old])
    (same : Block.Replaces setting marked missing new old) (lacks : locals.Lacks missing) :
    (Stmt.loop counter bound condition new).run setting locals =
      (Stmt.loop counter bound condition old).run setting locals := by
  have apart : ∀ name ∈ missing, counter ≠ some name := by
    rintro name absent rfl
    exact clear name (by simp [Block.localNames, Stmt.localNames]) (within absent)
  have bodies (turn : Nat) (locals : Locals) (lacks : locals.Lacks missing) :
      Block.run setting new (locals.enter counter turn) =
        Block.run setting old (locals.enter counter turn) :=
    same.run_eq (lacks.enter apart turn)
  have keeps (turn : Nat) (locals : Locals) (lacks : locals.Lacks missing) :
      Run.Always (fun flow => ∀ after, flow.leave counter locals = .onward after →
        after.Lacks missing) (Block.run setting old (locals.enter counter turn)) := by
    refine (Block.run_keeps setting old _).mono fun flow kept after left => ?_
    refine Locals.Lacks.leave (fun inner onward name absent => ?_) apart left
    subst onward
    have unused : name ∉ Block.free old := fun free => clear name
      (by simp [Block.localNames, Stmt.localNames, Block.mem_localNames_of_free free])
      (within absent)
    exact (kept name unused).trans (lacks.enter apart turn name absent)
  simp only [Stmt.run, TripBound.turns]
  cases bound.limit? with
  | none => exact loopTurns_congr bodies keeps _ _ _ lacks
  | some trips => exact loopTurns_congr bodies keeps _ _ _ lacks

end Places

/-! ## Places -/

/-- A place in a body where blocks can replace each other, as what surrounds it does not
interfere. -/
structure Hosts (place : Block → Block) : Prop where
  /-- What stands in a body without marked names has none. -/
  clear : ∀ {marked : Set String} {old : Block}, Block.Clear marked (place old) →
    Block.Clear marked old
  /-- Blocks replace each other there. -/
  replaces : ∀ {marked missing : Set String} {old new : Block} {setting : Setting},
    Block.Clear marked (place old) → missing ⊆ marked →
      Block.Replaces setting marked missing new old →
        Block.Replaces setting marked missing (place new) (place old)

namespace Hosts

/-- A whole body. -/
theorem whole : Hosts fun body => body where
  clear plain := plain
  replaces _ _ same := same

variable {place inner : Block → Block}

/-- Places can be nested. -/
theorem comp (outer : Hosts place) (nested : Hosts inner) :
    Hosts fun block => place (inner block) where
  clear plain := nested.clear (outer.clear plain)
  replaces plain within same :=
    outer.replaces plain within (nested.replaces (outer.clear plain) within same)

/-- A place in front of statements. -/
theorem before (rest : Block) : Hosts (· ++ rest) where
  clear plain := (Block.clear_append.mp plain).1
  replaces plain within same post clearPost locals lacks := by
    have clearRest := (Block.clear_append.mp plain).2
    rw [List.append_assoc, List.append_assoc]
    exact same (rest ++ post) (Block.clear_append.mpr ⟨clearRest, clearPost⟩) locals lacks

/-- A place after statements. -/
theorem behind (first : Block) : Hosts (first ++ ·) where
  clear plain := (Block.clear_append.mp plain).2
  replaces plain within same := by
    have clearFirst := (Block.clear_append.mp plain).1
    clear plain
    induction first with
    | nil => exact same
    | cons s rest ih =>
      obtain ⟨here, later⟩ := Block.clear_cons.mp clearFirst
      exact (ih later).behind_one within here

/-- The first arm of a branch. -/
theorem thenArm (cond : Expr) (elseBody : Block) (likelihood : Option Nat) :
    Hosts fun inner => [.branch cond inner elseBody likelihood] where
  clear plain name used := plain name (by simp [Block.localNames, Stmt.localNames, used])
  replaces _ _ same := .of_run rfl rfl fun locals lacks => by
    simp only [Stmt.run, same.run_eq lacks]

/-- The second arm of a branch. -/
theorem elseArm (cond : Expr) (thenBody : Block) (likelihood : Option Nat) :
    Hosts fun inner => [.branch cond thenBody inner likelihood] where
  clear plain name used := plain name (by simp [Block.localNames, Stmt.localNames, used])
  replaces _ _ same := .of_run rfl rfl fun locals lacks => by
    simp only [Stmt.run, same.run_eq lacks]

/-- The body of a loop. -/
theorem loopBody (counter : Option String) (bound : TripBound) (condition : Option Expr) :
    Hosts fun inner => [.loop counter bound condition inner] where
  clear plain name used := plain name (by simp [Block.localNames, Stmt.localNames, used])
  replaces plain within same := .of_run rfl rfl fun _ lacks =>
    Stmt.run_loop_replaced within plain same lacks

end Hosts

/-! ## Expansions -/

namespace Expansion

variable (expansion : Expansion)

/-- The names with the mark of an expansion. -/
def marked : Set String := { name | ∃ old, expansion.callee.localName expansion.site old = name }

/-- The marked names that the callee uses without binding them. -/
def missing : Set String :=
  { name | ∃ old ∈ expansion.callee.function.unboundNames,
    expansion.callee.localName expansion.site old = name }

/-- The body with the expansion replaces the body without it where calls of the callee do what
the callee does. -/
def Valid (find : FunctionId → Option Inlinable) : Prop :=
  ∃ id, find id = some expansion.callee ∧ ∀ setting : Setting,
    (∀ values, setting.call id values = expansion.callee.function.activate setting values) →
      Block.Clear expansion.marked expansion.before →
        Block.Replaces setting expansion.marked expansion.missing expansion.after expansion.before

end Expansion

/-- Functions that can be put in place of calls: they return at their end only and take as
many arguments as the calls pass. -/
structure Suits (find : FunctionId → Option Inlinable) (shapes : List (FunctionId × Nat)) :
    Prop where
  /-- Nothing but the end of the body returns. -/
  straight : ∀ id target, find id = some target →
    Block.splitEnd target.function.body = (target.init, target.value) ∧
      Block.returns target.init = false
  /-- An argument is passed for every parameter. -/
  arity : ∀ id count target, (id, count) ∈ shapes → find id = some target →
    count = target.function.params.length

section

variable {find : FunctionId → Option Inlinable}

/-- Fewer calls are to be replaced. -/
theorem Suits.mono {shapes fewer : List (FunctionId × Nat)} (suits : Suits find shapes)
    (less : fewer ⊆ shapes) : Suits find fewer :=
  ⟨suits.straight, fun id count target listed => suits.arity id count target (less listed)⟩

/-- The expansion of a statement that is nothing but a call is valid. -/
theorem Stmt.valid_expansion {place : Block → Block} (hosts : Hosts place) {s : Stmt} {site : Nat}
    (suits : Suits find s.callShapes) {expansion : Expansion}
    (made : s.expansion? find place site = some expansion) : expansion.Valid find := by
  unfold Stmt.expansion? at made
  simp only [Option.bind_eq_bind, Option.bind_eq_some_iff, Option.some.injEq] at made
  obtain ⟨⟨id, args⟩, whole, target, found, rest, left, rfl⟩ := made
  obtain ⟨split, straight⟩ := suits.straight id target found
  have listed : (id, args.length) ∈ s.callShapes := by
    rw [(Stmt.eq_of_wholeCall (fun _ => none) whole).2, Expr.callShapes_call]
    exact List.mem_cons_self
  have all := suits.arity id args.length target listed found
  refine ⟨id, found, fun setting calls clear => ?_⟩
  refine hosts.replaces clear ?_ fun post plain locals lacks => ?_
  · rintro name ⟨old, _, rfl⟩
    exact ⟨old, rfl⟩
  · have both := Block.clear_cons.mpr ⟨hosts.clear clear, plain⟩
    refine Inlinable.run_expansion split straight whole left all calls
      (fun name used old same => both name used ⟨old, same⟩) fun name unbound => ?_
    exact lacks _ ⟨name, unbound, rfl⟩

mutual

/-- All expansions in a statement are valid. -/
theorem Stmt.valid_expansions {place : Block → Block} (hosts : Hosts place) :
    ∀ (s : Stmt) (site : Nat), Suits find s.callShapes →
      ∀ expansion ∈ s.expansions find place site, expansion.Valid find
  | .bind .., site, suits | .assign .., site, suits | .eval _, site, suits => fun expansion made =>
    Stmt.valid_expansion hosts suits (Option.mem_toList.mp made)
  | .setGlobal .., _, _ | .store .., _, _ | .emit .., _, _ | .ret _, _, _ => by
    simp [Stmt.expansions]
  | .branch cond thenBody elseBody likelihood, site, suits => by
    have inThen := Block.valid_expansions (hosts.comp (.thenArm cond elseBody likelihood)) thenBody
      site (suits.mono fun shape listed => by simp [listed])
    have inElse := Block.valid_expansions
      (hosts.comp (.elseArm cond (Block.inline find thenBody site).body likelihood)) elseBody
      (Block.inline find thenBody site).next (suits.mono fun shape listed => by simp [listed])
    exact List.forall_mem_append.mpr ⟨inThen, inElse⟩
  | .loop counter bound condition body, site, suits =>
    Block.valid_expansions (hosts.comp (.loopBody counter bound condition)) body site
      (suits.mono fun shape listed => by simp [listed])

/-- All expansions in a block are valid. -/
theorem Block.valid_expansions {place : Block → Block} (hosts : Hosts place) :
    ∀ (block : List Stmt) (site : Nat), Suits find (Block.callShapes block) →
      ∀ expansion ∈ Block.expansions find place block site, expansion.Valid find
  | [], _, _ => by simp [Block.expansions]
  | s :: rest, site, suits => by
    have first := Stmt.valid_expansions (hosts.comp (.before rest)) s site
      (suits.mono fun shape listed => by simp [listed])
    have others := Block.valid_expansions (hosts.comp (.behind (s.inline find site).body)) rest
      (s.inline find site).next (suits.mono fun shape listed => by simp [listed])
    exact List.forall_mem_append.mpr ⟨first, others⟩

end

end

/-! ## Bodies of a program -/

/-- Only parameters are bound at the start of an activation. -/
theorem Locals.ofArgs_eq_none {params : List Parameter} {name : String}
    (other : name ∉ params.map Parameter.name) (args : List Literal) :
    Locals.ofArgs params args name = none := by
  have kept (passed : List (Parameter × Literal)) (locals : Locals)
      (apart : ∀ pair ∈ passed, name ≠ pair.1.name) :
      (passed.foldl (fun (locals : Locals) passed =>
        Function.update locals passed.1.name (some passed.2)) locals) name = locals name := by
    induction passed generalizing locals with
    | nil => rfl
    | cons pair rest ih =>
      obtain ⟨here, later⟩ := List.forall_mem_cons.mp apart
      rw [List.foldl_cons, ih _ later, Function.update_of_ne here]
  refine kept _ _ fun pair listed same => other ?_
  exact same ▸ List.mem_map_of_mem (List.of_mem_zip listed).1

namespace Program

/-- An activation of a body ends, after calls that are nested no deeper than `depth`, with a
result or a fault and with globals and output. -/
def Ends (program : Program) (patience depth : Nat) (params : List Parameter) (body : Block)
    (args : List Literal) (start : World) (ended : Except Halt (Option Literal) × World) : Prop :=
  (Block.activate (program.setting patience depth) params body args).run.run start = ended ∧
    ended.1 ≠ .error .unfinished

variable {program : Program} {caller : FunctionId} {function : Function}

/-- Bodies that do the same when calls of one function are waited for one level deeper end
alike one level deeper. -/
theorem Ends.of_settingBelow {patience depth : Nat} {id : FunctionId} {params : List Parameter}
    {body other : Block} {args : List Literal} {start : World}
    {ended : Except Halt (Option Literal) × World}
    (same : Block.activate (program.settingBelow patience depth id) params body args =
      Block.activate (program.settingBelow patience depth id) params other args)
    (ends : program.Ends patience depth params body args start ended) :
    program.Ends patience (depth + 1) params other args start ended := by
  have below := Block.activate_congr Run.approximates_congruence
    (program.patience_setting patience depth) params body
    (fun called _ _ values => program.approximates_settingBelow patience depth id called values)
    args
  have above := Block.activate_congr Run.approximates_congruence
    (program.patience_setting patience (depth + 1)).symm params other
    (fun called _ _ values => program.settingBelow_approximates patience depth id called values)
    args
  rw [same] at below
  obtain ⟨rfl, finished⟩ := ends
  have approximates := (below.trans above start).resolve_right finished
  exact ⟨approximates.symm, finished⟩

/-- Functions that calls may be replaced by suit the calls of consistent programs. -/
theorem suits_inlinable (consistent : program.fault? = none)
    (found : program.function? caller = some function) (maxSize : Nat)
    (wanted : OrderedSet FunctionId) :
    Suits (program.inlinable? caller maxSize wanted) (Block.callShapes function.body) where
  straight _ _ allowed :=
    ⟨(inlinable?_eq_some allowed).2.2.2, (inlinable?_shape allowed).1⟩
  arity _ _ _ listed allowed :=
    arity_of_consistent consistent found listed (inlinable?_eq_some allowed).1

/-- Expanding a call keeps the meaning of a body. The expansions of a body lead to its inlined
form one by one. At each of them, if no name in the body begins with the mark, and no parameter
is a marked name that the callee uses without binding it (callees that bind all their names use
none), the body with the expansion ends as the body without it does and the other way round,
with all arguments and from every world: it sends the same values, leaves the same globals and
gives the same result or fault. The call of the callee takes up one level of depth. -/
theorem expansion_keeps_meaning (consistent : program.fault? = none)
    (found : program.function? caller = some function) (maxSize : Nat)
    (wanted : OrderedSet FunctionId) (site : Nat) :
    Unfolds (program.inlinable? caller maxSize wanted) function.body site
      (Block.expansions (program.inlinable? caller maxSize wanted) (fun body => body)
        function.body site)
      (Block.inline (program.inlinable? caller maxSize wanted) function.body site).body
      (Block.inline (program.inlinable? caller maxSize wanted) function.body site).next ∧
    ∀ expansion ∈ Block.expansions (program.inlinable? caller maxSize wanted) (fun body => body)
        function.body site,
      (∀ name, expansion.callee.localName expansion.site name ∉
        Block.localNames expansion.before) →
      (∀ name ∈ expansion.callee.function.unboundNames,
        expansion.callee.localName expansion.site name ∉ function.params.map Parameter.name) →
      ∀ patience depth args start ended,
        (program.Ends patience depth function.params expansion.before args start ended →
          program.Ends patience (depth + 1) function.params expansion.after args start ended) ∧
        (program.Ends patience depth function.params expansion.after args start ended →
          program.Ends patience (depth + 1) function.params expansion.before args start ended) := by
  refine ⟨Block.unfolds .whole function.body site, fun expansion made clear params => ?_⟩
  intro patience depth args start ended
  obtain ⟨id, allowed, valid⟩ := Block.valid_expansions .whole function.body site
    (suits_inlinable consistent found maxSize wanted) expansion made
  obtain ⟨known, _, plain, _⟩ := inlinable?_eq_some allowed
  have replaces := valid (program.settingBelow patience depth id)
    (program.call_settingBelow patience depth known plain)
    fun name used marked => by
      obtain ⟨old, rfl⟩ := marked
      exact clear old used
  have lacks : (Locals.ofArgs function.params args).Lacks expansion.missing := by
    rintro _ ⟨old, unbound, rfl⟩
    exact Locals.ofArgs_eq_none (params old unbound) args
  have same : Block.activate (program.settingBelow patience depth id) function.params
      expansion.after args = Block.activate (program.settingBelow patience depth id)
        function.params expansion.before args := by
    unfold Block.activate
    rw [replaces.run_eq lacks]
  exact ⟨.of_settingBelow same.symm, .of_settingBelow same⟩

/-- An entry point that adds up in a loop what `scale` makes of the counter and the parameter.
Both functions use the names `i` and `x`, and `scale` assigns its parameter. -/
def tally : Program where
  functions.slots := [
    some {
      name := "scale"
      params := [⟨"x", .u64⟩, ⟨"n", .u64⟩]
      body := [
        .loop (some "i") (.exact 2) none [
          .bind "y" .u64 (.binary .mul .u64 (.var "x") (.var "n")),
          .assign "x" (.binary .add .u64 (.var "y") (.var "i"))],
        .ret (some (.var "x"))] },
    some {
      name := entryPoint
      params := [⟨"n", .u64⟩]
      body := [
        .bind "sum" .u64 (.lit (.ofInt .u64 0)),
        .loop (some "i") (.exact 3) none [
          .bind "x" .u64 (.call ⟨0⟩ [.var "i", .var "n"]),
          .assign "sum" (.binary .add .u64 (.var "sum") (.var "x")),
          .emit 1 (.var "sum")],
        .ret (some (.var "sum"))] }]

/-- The call in the loop of `tally` is expanded under names that are new to the entry point.
With 10 it sends 1, 102 and 303 before and after. -/
theorem expansion_keeps_meaning_tally : ∃ function expansion ended,
    tally.fault? = none ∧ tally.function? ⟨1⟩ = some function ∧
      Block.expansions (tally.inlinable? ⟨1⟩ 64 (.ofList [⟨0⟩])) (fun body => body)
        function.body 0 = [expansion] ∧
      (∀ name, expansion.callee.localName expansion.site name ∉
        Block.localNames expansion.before) ∧
      (∀ name ∈ expansion.callee.function.unboundNames,
        expansion.callee.localName expansion.site name ∉ function.params.map Parameter.name) ∧
      tally.Ends 0 1 function.params expansion.before [.ofInt .u64 10] ⟨fun _ => [], []⟩ ended ∧
      ended.1 = .ok (some (.ofInt .u64 303)) ∧
      ended.2.output.map (fun sent => sent.2.value) = [303, 102, 1] ∧
      tally.Ends 0 2 function.params expansion.after [.ofInt .u64 10] ⟨fun _ => [], []⟩ ended := by
  have consistent : tally.fault? = none := by decide +kernel
  obtain ⟨function, found⟩ : ∃ function, tally.function? ⟨1⟩ = some function := ⟨_, rfl⟩
  obtain ⟨expansion, made⟩ : ∃ expansion,
      Block.expansions (tally.inlinable? ⟨1⟩ 64 (.ofList [⟨0⟩])) (fun body => body)
        function.body 0 = [expansion] := by
    cases found
    exact ⟨_, rfl⟩
  have fresh (name : String) : expansion.callee.localName expansion.site name ∉
      Block.localNames expansion.before := by
    have plain : ∀ listed ∈ Block.localNames expansion.before, ¬Minted listed := by
      cases found
      cases made
      decide
    intro used
    exact plain _ used (minted_markOf expansion.callee.function.name expansion.site name)
  have bound : expansion.callee.function.unboundNames = [] := by
    cases found
    cases made
    decide
  have clear : ∀ name ∈ expansion.callee.function.unboundNames,
      expansion.callee.localName expansion.site name ∉ function.params.map Parameter.name := by
    simp [bound]
  have keeps := (expansion_keeps_meaning consistent found 64 (.ofList [⟨0⟩]) 0).2 expansion
    (made ▸ List.mem_singleton_self expansion) fresh clear 0 1 [.ofInt .u64 10] ⟨fun _ => [], []⟩
  refine ⟨function, expansion, _, consistent, found, made, fresh, clear, ⟨rfl, ?_⟩, ?_, ?_,
    (keeps _).1 ⟨rfl, ?_⟩⟩
  all_goals
    cases found
    cases made
    decide +kernel

/-- An entry point whose parameter is named like the local `y` of `f` in an expansion. The
function `f` reads `y` without binding it. -/
def hijacked : Program where
  functions.slots := [
    some { name := "f", body := [.emit 1 (.var "y")] },
    some {
      name := entryPoint
      params := [⟨"__f_0_y", .int .w32⟩]
      body := [.eval (.call ⟨0⟩ [])] }]

/-- Parameters have to be looked at. `hijacked` is consistent and can be analyzed, and no name
stands in the body of its entry point. Without the expansion the entry point halts, since `y` is
not bound, and sends nothing. With the expansion it reads its parameter and sends 7. -/
theorem expansion_changes_meaning_hijacked : ∃ analysis function expansion ended changed,
    hijacked.fault? = none ∧ hijacked.analyze none = .ok analysis ∧
      hijacked.function? ⟨1⟩ = some function ∧
      Block.expansions (hijacked.inlinable? ⟨1⟩ 64 (.ofList [⟨0⟩])) (fun body => body)
        function.body 0 = [expansion] ∧
      Block.localNames expansion.before = [] ∧
      hijacked.Ends 0 1 function.params expansion.before [.ofInt (.int .w32) 7]
        ⟨fun _ => [], []⟩ ended ∧
      ended.1 = .error .unboundLocal ∧ ended.2.output = [] ∧
      hijacked.Ends 0 1 function.params expansion.after [.ofInt (.int .w32) 7]
        ⟨fun _ => [], []⟩ changed ∧
      changed.1 = .ok none ∧ changed.2.output.map (fun sent => sent.2.value) = [7] := by
  refine ⟨_, _, _, _, _, by decide +kernel, rfl, rfl, rfl, by decide, ⟨rfl, ?_⟩, ?_, ?_,
    ⟨rfl, ?_⟩, ?_, ?_⟩
  all_goals decide +kernel

end Program

end Timebound
