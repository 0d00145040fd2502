import Timebound.Proofs.CallExpansion

/-!
# Traces without limits

What a body shows is read off its text, fragment by fragment: a fragment shows a list of
sightings and takes an amount of work. One unit goes to every statement that is visited, to
every written-out iteration and to every expanded call. A call is expanded exactly when its
callee exists and is not being expanded already. Neither work nor depth is limited, and
functions may call each other in circles.

Sightings and work are determined together (`Shows.unique`). There always are some: a
function that is expanded leaves less room for others, and within one body the fragments get
smaller (`unfolding_shown`, `Block.discloses`). Building a trace under the budget gives these
sightings when their work is within it, and nothing otherwise
(`Program.budget_only_gates`).
-/

namespace Timebound

/-! ## Sightings -/

/-- One thing that a body shows. -/
inductive Sighting where
  /-- A global is read. -/
  | read (seen : Read)
  /-- Something else happens. -/
  | effect (shown : Effect)

/-- A run of reads as a trace lists it: a set, if there is any. -/
def Read.listed (run : List Read) : List Effect :=
  if run.isEmpty then [] else [.reads (OrderedSet.ofList run).keys]

/-- What a trace lists for sightings that follow a run of reads. The reads between two
effects form one run. -/
def Sighting.listed (run : List Read) : List Sighting → List Effect
  | [] => Read.listed run
  | .read seen :: rest => Sighting.listed (run ++ [seen]) rest
  | .effect shown :: rest => Read.listed run ++ shown :: Sighting.listed [] rest

namespace Trace

/-- Add a sighting. -/
def see (trace : Trace) : Sighting → Trace
  | .read seen => trace.read seen
  | .effect shown => trace.push shown

/-- Pending reads are flushed as a run of reads is listed. -/
theorem flush_eq {trace : Trace} {run : List Read}
    (pending : trace.pending = OrderedSet.ofList run) :
    trace.flush = ⟨(Read.listed run).reverse ++ trace.events, .empty⟩ := by
  obtain ⟨events, reads⟩ := trace
  subst pending
  cases run with
  | nil => rfl
  | cons first rest =>
    have held : first ∈ (OrderedSet.ofList (first :: rest)).keys :=
      OrderedSet.mem_keys_ofList.mpr List.mem_cons_self
    have filled : (OrderedSet.ofList (first :: rest)).isEmpty = false := by
      rw [Table.isEmpty, List.isEmpty_eq_false_iff]
      intro nothing
      rw [Table.keys, nothing] at held
      exact List.not_mem_nil held
    simp only [flush, filled, Read.listed, List.isEmpty_cons, Bool.false_eq_true, if_false]
    rfl

/-- The effects of a trace to which sightings are added are those it had before and what is
listed for the sightings. -/
theorem finish_foldl_see (seen : List Sighting) : ∀ {trace : Trace} {run : List Read},
    trace.pending = OrderedSet.ofList run →
      (seen.foldl see trace).finish = trace.events.reverse ++ Sighting.listed run seen := by
  induction seen with
  | nil =>
    intro trace run pending
    rw [List.foldl_nil, finish, flush_eq pending, List.reverse_append, List.reverse_reverse,
      Sighting.listed]
  | cons first rest ih =>
    intro trace run pending
    rw [List.foldl_cons]
    cases first with
    | read seen =>
      have grown : (trace.read seen).pending = OrderedSet.ofList (run ++ [seen]) := by
        have added : OrderedSet.ofList (run ++ [seen]) =
            OrderedSet.add (OrderedSet.ofList run) seen := List.foldl_append
        rw [added, ← pending]
        rfl
      exact ih grown
    | effect shown =>
      have pushed : trace.push shown =
          ⟨shown :: ((Read.listed run).reverse ++ trace.events), .empty⟩ := by
        rw [push, flush_eq pending]
      have nothing : (trace.push shown).pending = OrderedSet.ofList [] := by
        rw [pushed]
        rfl
      rw [see, ih nothing, pushed, Sighting.listed]
      simp

end Trace

/-! ## What a body shows -/

/-- A fragment of a body. -/
inductive Fragment where
  /-- An expression. -/
  | expr (e : Expr)
  /-- Arguments of a call. -/
  | args (args : List Expr)
  /-- A statement. -/
  | stmt (s : Stmt)
  /-- A number of copies of a block. -/
  | copies (count : Nat) (body : Block)
  /-- A block. -/
  | block (block : Block)

/-- The effect of a statement itself, after those of its expressions. -/
def Stmt.ownEffect? : Stmt → Option Effect
  | .setGlobal id _ => some (.write id)
  | .store id _ _ => some (.store id)
  | .emit channel _ => some (.emit channel)
  | _ => none

/-- The effect of a branch, by what is listed for its arms. -/
def Expr.branchEffect (cond : Expr) (thenSeen elseSeen : List Sighting) : Effect :=
  if cond.negated then .branch (Sighting.listed [] elseSeen) (Sighting.listed [] thenSeen)
  else .branch (Sighting.listed [] thenSeen) (Sighting.listed [] elseSeen)

/-- What a fragment shows while the `active` functions are being expanded, and the work that
this takes. -/
inductive Shows (lookup : FunctionId → Option Function) :
    List FunctionId → Fragment → List Sighting → Nat → Prop where
  /-- A literal shows nothing. -/
  | lit {active : List FunctionId} (value : Literal) : Shows lookup active (.expr (.lit value)) [] 0
  /-- A local variable shows nothing. -/
  | var {active : List FunctionId} (name : String) : Shows lookup active (.expr (.var name)) [] 0
  /-- A global is read. -/
  | global {active : List FunctionId} (id : GlobalId) :
      Shows lookup active (.expr (.global id)) [.read (.scalar id)] 0
  /-- An element is read after its index is evaluated. -/
  | load {active : List FunctionId} (id : GlobalId) {index : Expr} {seen : List Sighting}
      {work : Nat} (inner : Shows lookup active (.expr index) seen work) :
      Shows lookup active (.expr (.load id index))
        (seen ++ [.read (.element id (index.literal?.map Literal.value))]) work
  /-- An operator shows what its operand does. -/
  | unary {active : List FunctionId} (op : UnaryOp) (type : ScalarType) {operand : Expr}
      {seen : List Sighting} {work : Nat} (inner : Shows lookup active (.expr operand) seen work) :
      Shows lookup active (.expr (.unary op type operand)) seen work
  /-- An operator shows what its operands do. -/
  | binary {active : List FunctionId} (op : BinaryOp) (type : ScalarType) {left right : Expr}
      {seen later : List Sighting} {work more : Nat}
      (first : Shows lookup active (.expr left) seen work)
      (second : Shows lookup active (.expr right) later more) :
      Shows lookup active (.expr (.binary op type left right)) (seen ++ later) (work + more)
  /-- A call of a function that exists and is not active is expanded, for one unit. -/
  | expanded {active : List FunctionId} {callee : FunctionId} {function : Function}
      {args : List Expr} {seen later : List Sighting} {work more : Nat}
      (passed : Shows lookup active (.args args) seen work)
      (found : lookup callee = some function) (idle : callee ∉ active)
      (body : Shows lookup (callee :: active) (.block function.body) later more) :
      Shows lookup active (.expr (.call callee args)) (seen ++ later) (work + (1 + more))
  /-- Every other call stays a call. -/
  | kept {active : List FunctionId} {callee : FunctionId} {args : List Expr}
      {seen : List Sighting} {work : Nat} (passed : Shows lookup active (.args args) seen work)
      (closed : callee ∈ active ∨ lookup callee = none) :
      Shows lookup active (.expr (.call callee args)) (seen ++ [.effect (.call callee)]) work
  /-- No arguments show nothing. -/
  | noArgs {active : List FunctionId} : Shows lookup active (.args []) [] 0
  /-- Arguments show what they do in order. -/
  | moreArgs {active : List FunctionId} {arg : Expr} {args : List Expr}
      {seen later : List Sighting} {work more : Nat}
      (first : Shows lookup active (.expr arg) seen work)
      (others : Shows lookup active (.args args) later more) :
      Shows lookup active (.args (arg :: args)) (seen ++ later) (work + more)
  /-- A statement without nested blocks evaluates its expressions and then has its effect. -/
  | plain {active : List FunctionId} {s : Stmt} {seen : List Sighting} {work : Nat}
      (simple : s.blocks = []) (inner : Shows lookup active (.args s.exprs) seen work) :
      Shows lookup active (.stmt s) (seen ++ s.ownEffect?.toList.map .effect) work
  /-- A branch lists both arms apart. -/
  | branch {active : List FunctionId} {cond : Expr} {thenBody elseBody : Block}
      (likelihood : Option Nat) {seen thenSeen elseSeen : List Sighting}
      {work thenWork elseWork : Nat} (decided : Shows lookup active (.expr cond.guard) seen work)
      (thenArm : Shows lookup active (.block thenBody) thenSeen thenWork)
      (elseArm : Shows lookup active (.block elseBody) elseSeen elseWork) :
      Shows lookup active (.stmt (.branch cond thenBody elseBody likelihood))
        (seen ++ [.effect (cond.branchEffect thenSeen elseSeen)]) (work + (thenWork + elseWork))
  /-- A loop of exactly 64 iterations or fewer without a condition is written out. -/
  | written {active : List FunctionId} (counter : Option String) {trips : Nat} {body : Block}
      {seen : List Sighting} {work : Nat} (short : trips ≤ 64)
      (copies : Shows lookup active (.copies trips body) seen work) :
      Shows lookup active (.stmt (.loop counter (.exact trips) none body)) seen work
  /-- Every other loop lists its condition and body apart. -/
  | loop {active : List FunctionId} (counter : Option String) {bound : TripBound}
      {condition : Option Expr} {body : Block} {seen later : List Sighting} {work more : Nat}
      (long : ∀ trips ≤ 64, bound = .exact trips → condition ≠ none)
      (decided : Shows lookup active (.args condition.toList) seen work)
      (once : Shows lookup active (.block body) later more) :
      Shows lookup active (.stmt (.loop counter bound condition body))
        [.effect (.loop bound (Sighting.listed [] (seen ++ later)))] (work + more)
  /-- No copies show nothing. -/
  | noCopies {active : List FunctionId} (body : Block) : Shows lookup active (.copies 0 body) [] 0
  /-- Every copy takes one unit. -/
  | moreCopies {active : List FunctionId} {count : Nat} {body : Block}
      {seen later : List Sighting} {work more : Nat}
      (first : Shows lookup active (.block body) seen work)
      (others : Shows lookup active (.copies count body) later more) :
      Shows lookup active (.copies (count + 1) body) (seen ++ later) (1 + work + more)
  /-- An empty block shows nothing. -/
  | done {active : List FunctionId} : Shows lookup active (.block []) [] 0
  /-- Every statement takes one unit. -/
  | next {active : List FunctionId} {s : Stmt} {rest : Block} {seen later : List Sighting}
      {work more : Nat} (first : Shows lookup active (.stmt s) seen work)
      (others : Shows lookup active (.block rest) later more) :
      Shows lookup active (.block (s :: rest)) (seen ++ later) (1 + work + more)

/-- A fragment shows one list of sightings and takes one amount of work. -/
theorem Shows.unique {lookup : FunctionId → Option Function} {active : List FunctionId}
    {fragment : Fragment} {seen other : List Sighting} {work more : Nat}
    (shows : Shows lookup active fragment seen work)
    (again : Shows lookup active fragment other more) : other = seen ∧ more = work := by
  -- calls and loops have two rules each, whose side conditions exclude each other
  induction shows generalizing other more with
  | lit | var | global | noArgs | noCopies | done =>
    cases again
    exact ⟨rfl, rfl⟩
  | load _ _ ih =>
    cases again with
    | load _ inner => simp only [ih inner, and_self]
  | unary _ _ _ ih =>
    cases again with
    | unary _ _ inner => exact ih inner
  | binary _ _ _ _ ih ihOthers =>
    cases again with
    | binary _ _ first others => simp only [ih first, ihOthers others, and_self]
  | moreArgs _ _ ih ihOthers =>
    cases again with
    | moreArgs first others => simp only [ih first, ihOthers others, and_self]
  | moreCopies _ _ ih ihOthers =>
    cases again with
    | moreCopies first others => simp only [ih first, ihOthers others, and_self]
  | next _ _ ih ihOthers =>
    cases again with
    | next first others => simp only [ih first, ihOthers others, and_self]
  | expanded _ found idle _ ihPassed ihBody =>
    cases again with
    | expanded passed refound _ body =>
      cases found.symm.trans refound
      simp only [ihPassed passed, ihBody body, and_self]
    | kept _ closed => cases found.symm.trans (closed.resolve_left idle)
  | kept _ closed ih =>
    cases again with
    | expanded _ found idle _ => cases found.symm.trans (closed.resolve_left idle)
    | kept passed _ => simp only [ih passed, and_self]
  | plain simple _ ih =>
    cases again with
    | plain _ inner => simp only [ih inner, and_self]
    | branch | written | loop => cases simple
  | branch _ _ _ _ ihDecided ihThen ihElse =>
    cases again with
    | plain simple _ => cases simple
    | branch _ decided thenArm elseArm =>
      simp only [ihDecided decided, ihThen thenArm, ihElse elseArm, and_self]
  | written _ short _ ih =>
    cases again with
    | plain simple _ => cases simple
    | written _ _ copies => exact ih copies
    | loop _ long _ _ => exact absurd rfl (long _ short rfl)
  | loop _ long _ _ ihDecided ihOnce =>
    cases again with
    | plain simple _ => cases simple
    | written _ short _ => exact absurd rfl (long _ short rfl)
    | loop _ _ decided once => simp only [ihDecided decided, ihOnce once, and_self]

/-! ## Every body shows something -/

/-- A fragment shows what `act` adds to traces, and takes this work. -/
def Discloses (lookup : FunctionId → Option Function) (active : List FunctionId)
    (fragment : Fragment) (act : Trace → Trace) (work : Nat) : Prop :=
  ∃ seen, Shows lookup active fragment seen work ∧ ∀ trace, act trace = seen.foldl Trace.see trace

/-- Calls stand for what their callees show: for nothing when the callee is missing or active,
and for its body otherwise. -/
def CallsShown (lookup : FunctionId → Option Function) (active : List FunctionId)
    (opened : FunctionId → Option (Trace → Trace)) (price : FunctionId → Nat) : Prop :=
  ∀ callee, ((callee ∈ active ∨ lookup callee = none) ∧ opened callee = none ∧ price callee = 0) ∨
    ∃ function act work, lookup callee = some function ∧ callee ∉ active ∧
      opened callee = some act ∧ price callee = 1 + work ∧
        Discloses lookup (callee :: active) (.block function.body) act work

section Fragments

variable {lookup : FunctionId → Option Function} {active : List FunctionId}
  {opened : FunctionId → Option (Trace → Trace)} {price : FunctionId → Nat}

mutual

/-- An expression shows its effects, for its work. -/
theorem Expr.discloses (calls : CallsShown lookup active opened price) : ∀ e : Expr,
    Discloses lookup active (.expr e) (e.effects opened) (e.work price)
  | .lit value => ⟨_, .lit value, fun _ => rfl⟩
  | .var name => ⟨_, .var name, fun _ => rfl⟩
  | .global id => ⟨_, .global id, fun _ => rfl⟩
  | .load id index => by
    obtain ⟨seen, shows, adds⟩ := Expr.discloses calls index
    refine ⟨_, .load id shows, fun trace => ?_⟩
    rw [Expr.effects, adds, List.foldl_append]
    rfl
  | .unary op type operand => by
    obtain ⟨seen, shows, adds⟩ := Expr.discloses calls operand
    exact ⟨seen, .unary op type shows, adds⟩
  | .binary op type left right => by
    obtain ⟨seen, shows, adds⟩ := Expr.discloses calls left
    obtain ⟨later, showsLater, addsLater⟩ := Expr.discloses calls right
    refine ⟨_, .binary op type shows showsLater, fun trace => ?_⟩
    rw [Expr.effects, adds, addsLater, List.foldl_append]
  | .call callee args => by
    obtain ⟨seen, shows, adds⟩ := Args.discloses calls args
    rcases calls callee with ⟨closed, stays, free⟩ |
      ⟨function, act, work, found, idle, replaced, paid, later, showsLater, addsLater⟩
    · rw [Expr.work, free]
      refine ⟨_, .kept shows closed, fun trace => ?_⟩
      simp only [Expr.effects, stays, adds, List.foldl_append]
      rfl
    · rw [Expr.work, paid]
      refine ⟨_, .expanded shows found idle showsLater, fun trace => ?_⟩
      simp only [Expr.effects, replaced, adds, addsLater, List.foldl_append]

/-- Arguments show their effects, for their work. -/
theorem Args.discloses (calls : CallsShown lookup active opened price) : ∀ args : List Expr,
    Discloses lookup active (.args args) (Args.effects opened args) (Args.work price args)
  | [] => ⟨_, .noArgs, fun _ => rfl⟩
  | arg :: args => by
    obtain ⟨seen, shows, adds⟩ := Expr.discloses calls arg
    obtain ⟨later, showsLater, addsLater⟩ := Args.discloses calls args
    refine ⟨_, .moreArgs shows showsLater, fun trace => ?_⟩
    rw [Args.effects, adds, addsLater, List.foldl_append]

end

/-- A statement without nested blocks has the effects of its expressions and its own one. -/
theorem Stmt.effects_plain {s : Stmt} (simple : s.blocks = []) (trace : Trace) :
    s.effects opened trace = (s.ownEffect?.toList.map Sighting.effect).foldl Trace.see
      (Args.effects opened s.exprs trace) := by
  cases s with
  | branch | loop => cases simple
  | _ => rfl

/-- A statement without nested blocks takes the work for its expressions. -/
theorem Stmt.work_plain {s : Stmt} (simple : s.blocks = []) :
    s.work price = Args.work price s.exprs := by
  cases s with
  | branch | loop => cases simple
  | _ => rfl

/-- A statement without nested blocks shows its effects, for its work. -/
theorem Stmt.discloses_plain (calls : CallsShown lookup active opened price) {s : Stmt}
    (simple : s.blocks = []) :
    Discloses lookup active (.stmt s) (s.effects opened) (s.work price) := by
  obtain ⟨seen, shows, adds⟩ := Args.discloses calls s.exprs
  rw [Stmt.work_plain simple]
  refine ⟨_, .plain simple shows, fun trace => ?_⟩
  rw [Stmt.effects_plain simple, adds, List.foldl_append]

/-- Copies of a block show its effects again and again. -/
theorem Discloses.copies {body : Block} {act : Trace → Trace} {work : Nat}
    (once : Discloses lookup active (.block body) act work) (count : Nat) :
    Discloses lookup active (.copies count body) act^[count] (count * (1 + work)) := by
  obtain ⟨seen, shows, adds⟩ := once
  induction count with
  | zero =>
    rw [Nat.zero_mul]
    exact ⟨_, .noCopies body, fun _ => rfl⟩
  | succ count ih =>
    obtain ⟨later, showsLater, addsLater⟩ := ih
    have total : (count + 1) * (1 + work) = 1 + work + count * (1 + work) := by
      rw [Nat.succ_mul, Nat.add_comm]
    rw [total]
    refine ⟨_, .moreCopies shows showsLater, fun trace => ?_⟩
    rw [Function.iterate_succ_apply, adds, addsLater, List.foldl_append]

/-- What is listed apart for a fragment are the effects it adds to an empty trace. -/
theorem finish_eq_listed {act : Trace → Trace} {seen : List Sighting}
    (adds : ∀ trace, act trace = seen.foldl Trace.see trace) :
    (act {}).finish = Sighting.listed [] seen := by
  have nothing : ({} : Trace).pending = OrderedSet.ofList [] := rfl
  rw [adds, Trace.finish_foldl_see seen nothing]
  rfl

mutual

/-- A statement shows its effects, for its work. -/
theorem Stmt.discloses (calls : CallsShown lookup active opened price) : ∀ s : Stmt,
    Discloses lookup active (.stmt s) (s.effects opened) (s.work price)
  | .branch cond thenBody elseBody likelihood => by
    obtain ⟨seen, shows, adds⟩ := Expr.discloses calls cond.guard
    obtain ⟨thenSeen, showsThen, addsThen⟩ := Block.discloses calls thenBody
    obtain ⟨elseSeen, showsElse, addsElse⟩ := Block.discloses calls elseBody
    refine ⟨_, .branch likelihood shows showsThen showsElse, fun trace => ?_⟩
    rw [Stmt.effects, finish_eq_listed addsThen, finish_eq_listed addsElse, adds,
      List.foldl_append]
    rfl
  | .loop counter bound condition body => by
    have once := Block.discloses calls body
    cases written : bound.writtenTrips? condition with
    | some trips =>
      obtain ⟨short, rfl, rfl⟩ := TripBound.writtenTrips?_eq_some_iff.mp written
      obtain ⟨seen, shows, adds⟩ := once.copies trips
      simp only [Stmt.work, Stmt.effects, written]
      exact ⟨seen, .written counter short shows, adds⟩
    | none =>
      obtain ⟨seen, shows, adds⟩ := Args.discloses calls condition.toList
      obtain ⟨later, showsLater, addsLater⟩ := once
      have inner (trace : Trace) : Block.effects opened body
          (Args.effects opened condition.toList trace) = (seen ++ later).foldl Trace.see trace := by
        rw [adds, addsLater, List.foldl_append]
      have long (trips : Nat) (short : trips ≤ 64) (exactly : bound = .exact trips) :
          condition ≠ none := fun bare => by
        have copied := TripBound.writtenTrips?_eq_some_iff.mpr ⟨short, exactly, bare⟩
        cases written.symm.trans copied
      simp only [Stmt.work, Stmt.effects, written]
      refine ⟨_, .loop counter long shows showsLater, fun trace => ?_⟩
      rw [finish_eq_listed inner]
      rfl
  | .bind .. | .assign .. | .setGlobal .. | .store .. | .emit .. | .eval .. | .ret .. =>
    Stmt.discloses_plain calls rfl

/-- A block shows its effects, for its work. -/
theorem Block.discloses (calls : CallsShown lookup active opened price) : ∀ block : Block,
    Discloses lookup active (.block block) (Block.effects opened block) (Block.work price block)
  | [] => ⟨_, .done, fun _ => rfl⟩
  | s :: rest => by
    obtain ⟨seen, shows, adds⟩ := Stmt.discloses calls s
    obtain ⟨later, showsLater, addsLater⟩ := Block.discloses calls rest
    refine ⟨_, .next shows showsLater, fun trace => ?_⟩
    rw [Block.effects, adds, addsLater, List.foldl_append]

end

end Fragments

/-- What calls are replaced by is what their callees show, however these call each other. -/
theorem unfolding_shown {lookup : FunctionId → Option Function} {size : Nat}
    (finds : FindsBelow lookup size) (active : List FunctionId) :
    CallsShown lookup active (unfolding lookup size active) (unfoldingWork lookup size active) := by
  -- on the room that is left, which every expansion takes from
  induction left : room size active using Nat.strong_induction_on generalizing active with
  | _ left ih =>
    intro callee
    by_cases listed : callee ∈ active
    · exact .inl ⟨.inl listed, expandCalls_of_mem _ listed, expandCalls_of_mem _ listed⟩
    · cases found : lookup callee with
      | none =>
        exact .inl ⟨.inr rfl, expandCalls_of_missing _ _ found, expandCalls_of_missing _ _ found⟩
      | some function =>
        have less := room_cons_lt (finds callee function found) listed
        have inner := ih _ (left ▸ less) (callee :: active) rfl
        exact .inr ⟨function, _, _, rfl, listed, expandCalls_of_found finds found listed,
          expandCalls_of_found finds found listed, Block.discloses inner function.body⟩

/-! ## The budget -/

/-- A body shows one list of sightings, for one finite amount of work, in every program and
however its functions call each other. The trace of the body exists exactly when that work
is within 65536 units, and then lists these sightings. -/
theorem Program.budget_only_gates (program : Program) (id : FunctionId) (body : Block) :
    ∃ seen work, Shows program.function? [id] (.block body) seen work ∧
      (∀ other more, Shows program.function? [id] (.block body) other more →
        other = seen ∧ more = work) ∧
      ∀ effects, program.view.traceOfBody id body = some effects ↔
        work ≤ 65536 ∧ effects = Sighting.listed [] seen := by
  obtain ⟨seen, shows, adds⟩ := Block.discloses (unfolding_shown program.findsBelow [id]) body
  refine ⟨seen, _, shows, fun other more again => shows.unique again, fun effects => ?_⟩
  have listed : program.view.effectsOfBody id body = Sighting.listed [] seen :=
    finish_eq_listed adds
  rw [View.traceOfBody_eq, listed, Option.ite_none_right_eq_some, Option.some.injEq, eq_comm]
  rfl

end Timebound
