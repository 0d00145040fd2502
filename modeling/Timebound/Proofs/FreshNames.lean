import Timebound.Proofs.GuidedEffects
import Timebound.Proofs.MarkedNames
import Timebound.Proofs.Wording

/-!
# Fresh names

An expansion marks the locals of the callee with the callee's name and the number of the
site. The number has 32 bits. As long as no expansion in a caller takes the last number, no
number is given out twice there, so the marked names are new to the caller, over any number
of sweeps of the guided pass, provided that no function name can be taken for another one,
or for a counter, in front of a number (`Guided.expansion_names_fresh`).

The expansions made in a block are listed with the body of the caller before and after
each of them. One expansion adds marked names only (`Expansion.Mints`), and a run of them
leads from the block to its expanded form (`Block.unfolds`).
-/

namespace Timebound

/-! ## The expansions of a block -/

/-- A call of a body, expanded. -/
structure Expansion where
  /-- The body of the caller when the call is met. -/
  before : Block
  /-- What the call is replaced by. -/
  callee : Inlinable
  /-- The number of the site. -/
  site : Nat
  /-- The body with the expansion in place of the call. -/
  after : Block

/-- The expansion of a statement that stands at a place of a body. -/
def Stmt.expansion? (find : FunctionId → Option Inlinable) (place : Block → Block) (s : Stmt)
    (site : Nat) : Option Expansion := do
  let (callee, args) ← s.wholeCall?
  let target ← find callee
  let rest ← s.afterCall? (target.result site)
  some ⟨place [s], target, site, place (target.statements site args ++ rest)⟩

mutual

/-- The expansions of the calls of a statement that stands at a place of a body. -/
def Stmt.expansions (find : FunctionId → Option Inlinable) (place : Block → Block) :
    Stmt → Nat → List Expansion
  | .branch cond thenBody elseBody likelihood, site =>
    let inThen := Block.inline find thenBody site
    Block.expansions find (fun inner => place [.branch cond inner elseBody likelihood]) thenBody
        site ++
      Block.expansions find (fun inner => place [.branch cond inThen.body inner likelihood])
        elseBody inThen.next
  | .loop counter bound condition body, site =>
    Block.expansions find (fun inner => place [.loop counter bound condition inner]) body site
  | .bind name type value, site => ((Stmt.bind name type value).expansion? find place site).toList
  | .assign name value, site => ((Stmt.assign name value).expansion? find place site).toList
  | .eval value, site => ((Stmt.eval value).expansion? find place site).toList
  | .setGlobal .., _ | .store .., _ | .emit .., _ | .ret _, _ => []

/-- The expansions of the calls of a block that stands at a place of a body. -/
def Block.expansions (find : FunctionId → Option Inlinable) (place : Block → Block) :
    List Stmt → Nat → List Expansion
  | [], _ => []
  | s :: rest, site =>
    let first := s.inline find site
    s.expansions find (fun inner => place (inner ++ rest)) site ++
      Block.expansions find (fun inner => place (first.body ++ inner)) rest first.next

end

/-- An expansion adds marked names only. -/
def Expansion.Mints (expansion : Expansion) : Prop :=
  ∀ allowed counts, Block.Worded allowed counts expansion.before →
    (∀ name, allowed (expansion.callee.localName expansion.site name)) →
    (∀ name, counts (expansion.callee.localName expansion.site name)) →
      Block.Worded allowed counts expansion.after

/-- Expansions that lead from a body to another one, with the sites numbered on. -/
inductive Unfolds (find : FunctionId → Option Inlinable) :
    Block → Nat → List Expansion → Block → Nat → Prop
  /-- Nothing is expanded. -/
  | done (body : Block) (site : Nat) : Unfolds find body site [] body site
  /-- A call is expanded, and others after it. -/
  | expand {expansion : Expansion} {later : List Expansion} {finish : Block} {next : Nat}
      (found : ∃ id, find id = some expansion.callee) (mints : expansion.Mints)
      (rest : Unfolds find expansion.after (nextSite expansion.site) later finish next) :
      Unfolds find expansion.before expansion.site (expansion :: later) finish next

/-- Expansions can be made one after the other. -/
theorem Unfolds.trans {find : FunctionId → Option Inlinable} {start middle finish : Block}
    {site reached next : Nat} {first second : List Expansion}
    (one : Unfolds find start site first middle reached)
    (other : Unfolds find middle reached second finish next) :
    Unfolds find start site (first ++ second) finish next := by
  induction one with
  | done => exact other
  | expand found mints _ ih => exact .expand found mints (ih other)

/-! ## Expansions add marked names -/

/-- A place that has a wording of its own. -/
def Transparent (place : Block → Block) : Prop :=
  ∀ allowed counts, ∃ around : Prop, ∀ block,
    Block.Worded allowed counts (place block) ↔ around ∧ Block.Worded allowed counts block

namespace Transparent

/-- A whole body has nothing around it. -/
theorem whole : Transparent fun body => body :=
  fun _ _ => ⟨True, fun _ => iff_of_eq (true_and _).symm⟩

variable {place inner : Block → Block}

/-- Places can be nested. -/
theorem comp (outer : Transparent place) (nested : Transparent inner) :
    Transparent fun block => place (inner block) := by
  intro allowed counts
  obtain ⟨around, outside⟩ := outer allowed counts
  obtain ⟨between, inside⟩ := nested allowed counts
  exact ⟨around ∧ between, fun block => by rw [outside, inside, and_assoc]⟩

/-- A place in front of statements. -/
theorem before (rest : Block) : Transparent (· ++ rest) :=
  fun allowed counts => ⟨Block.Worded allowed counts rest, fun block => by
    rw [Block.worded_append, and_comm]⟩

/-- A place after statements. -/
theorem behind (first : Block) : Transparent (first ++ ·) :=
  fun allowed counts => ⟨Block.Worded allowed counts first, fun _ => Block.worded_append⟩

/-- The first arm of a branch. -/
theorem thenArm (cond : Expr) (elseBody : Block) (likelihood : Option Nat) :
    Transparent fun inner => [.branch cond inner elseBody likelihood] :=
  fun allowed counts => ⟨cond.Worded allowed ∧ Block.Worded allowed counts elseBody, fun block => by
    rw [Block.worded_singleton, Stmt.Worded]
    tauto⟩

/-- The second arm of a branch. -/
theorem elseArm (cond : Expr) (thenBody : Block) (likelihood : Option Nat) :
    Transparent fun inner => [.branch cond thenBody inner likelihood] :=
  fun allowed counts => ⟨cond.Worded allowed ∧ Block.Worded allowed counts thenBody, fun block => by
    rw [Block.worded_singleton, Stmt.Worded, and_assoc]⟩

/-- The body of a loop. -/
theorem loopBody (counter : Option String) (bound : TripBound) (condition : Option Expr) :
    Transparent fun inner => [.loop counter bound condition inner] :=
  fun allowed counts => ⟨(∀ name ∈ counter, allowed name ∧ counts name) ∧
    Args.Worded allowed condition.toList, fun block => by
      rw [Block.worded_singleton, Stmt.Worded, and_assoc]⟩

end Transparent

section

variable {allowed counts : String → Prop}

/-- The arguments of a call that is a whole statement have names of the statement. -/
theorem Stmt.Worded.wholeCall {s : Stmt} {callee : FunctionId} {args : List Expr}
    (worded : s.Worded allowed counts) (whole : s.wholeCall? = some (callee, args)) :
    Args.Worded allowed args := by
  unfold Stmt.wholeCall? at whole
  split at whole
  case h_4 => simp at whole
  case h_3 =>
    cases whole
    exact worded
  all_goals
    cases whole
    exact worded.2

/-- What is left of a statement after its call has names of the statement and of the
result. -/
theorem Stmt.Worded.afterCall {s : Stmt} {result : Option Expr} {rest : Block}
    (worded : s.Worded allowed counts) (left : s.afterCall? result = some rest)
    (given : Args.Worded allowed result.toList) : Block.Worded allowed counts rest := by
  have read {value : Expr} (given : Args.Worded allowed (some value).toList) :
      value.Worded allowed := fun name listed => given name (by simpa using listed)
  unfold Stmt.afterCall? at left
  split at left
  case h_5 => simp at left
  case h_4 =>
    cases left
    trivial
  case h_3 =>
    cases left
    exact ⟨read given, trivial⟩
  all_goals
    cases left
    exact ⟨⟨worded.1, read given⟩, trivial⟩

/-- Parameters that hold arguments have marked names and those of the arguments. -/
theorem worded_params {label : String → String} (named : ∀ name, allowed (label name))
    (params : List Parameter) {args : List Expr} (given : Args.Worded allowed args) :
    Block.Worded allowed counts ((params.zip args).map fun (param, arg) =>
      .bind (label param.name) param.type arg) := by
  induction params generalizing args with
  | nil => trivial
  | cons param params ih =>
    cases args with
    | nil => trivial
    | cons arg args =>
      have both : arg.Worded allowed ∧ Args.Worded allowed args := by
        unfold Args.Worded at given
        rw [Args.reads_cons] at given
        exact List.forall_mem_append.mp given
      exact ⟨⟨named param.name, both.1⟩, ih both.2⟩

end

section

variable {find : FunctionId → Option Inlinable} {place : Block → Block}

/-- Expanding a call that is a whole statement is one expansion. -/
theorem Stmt.unfolds_call (transparent : Transparent place) (s : Stmt) (site : Nat) :
    Unfolds find (place [s]) site (s.expansion? find place site).toList
      (place (s.inlineCall find site).body) (s.inlineCall find site).next := by
  unfold Stmt.expansion? Stmt.inlineCall
  cases whole : s.wholeCall? with
  | none => exact .done _ _
  | some call =>
    cases found : find call.1 with
    | none =>
      simp only [Option.bind_eq_bind, Option.bind_some, found, Option.bind_none, Option.toList_none]
      exact .done _ _
    | some target =>
      cases left : s.afterCall? (target.result site) with
      | none =>
        simp only [Option.bind_eq_bind, Option.bind_some, found, left, Option.bind_none,
          Option.toList_none]
        exact .done _ _
      | some rest =>
        simp only [Option.bind_eq_bind, Option.bind_some, found, left, Option.toList_some]
        have mints : Expansion.Mints
            ⟨place [s], target, site, place (target.statements site call.2 ++ rest)⟩ := by
          intro allowed counts worded named counted
          obtain ⟨around, iff⟩ := transparent allowed counts
          rw [iff, Block.worded_singleton] at worded
          rw [iff]
          refine ⟨worded.1, Block.worded_append.mpr ⟨Block.worded_append.mpr ⟨?_, ?_⟩, ?_⟩⟩
          · exact worded_params named target.function.params (worded.2.wholeCall whole)
          · exact Block.worded_rename named counted target.init
          · exact worded.2.afterCall left (Args.Worded.rename fun name _ => named name)
        exact .expand ⟨call.1, found⟩ mints (.done _ _)

mutual

/-- The expansions of a statement lead to its expanded form. -/
theorem Stmt.unfolds {place : Block → Block} (transparent : Transparent place) :
    ∀ (s : Stmt) (site : Nat), Unfolds find (place [s]) site (s.expansions find place site)
      (place (s.inline find site).body) (s.inline find site).next
  | .bind .., site | .assign .., site | .eval _, site => Stmt.unfolds_call transparent _ site
  | .setGlobal .., site | .store .., site | .emit .., site | .ret _, site => .done _ _
  | .branch cond thenBody elseBody likelihood, site => by
    have inThen := Block.unfolds (transparent.comp (.thenArm cond elseBody likelihood))
      thenBody site
    have inElse := Block.unfolds
      (transparent.comp (.elseArm cond (Block.inline find thenBody site).body likelihood)) elseBody
      (Block.inline find thenBody site).next
    exact inThen.trans inElse
  | .loop counter bound condition body, site =>
    Block.unfolds (transparent.comp (.loopBody counter bound condition)) body site

/-- The expansions of a block lead to its expanded form. -/
theorem Block.unfolds {place : Block → Block} (transparent : Transparent place) :
    ∀ (block : Block) (site : Nat), Unfolds find (place block) site
      (Block.expansions find place block site) (place (Block.inline find block site).body)
      (Block.inline find block site).next
  | [], site => .done _ _
  | s :: rest, site => by
    have first := Stmt.unfolds (transparent.comp (.before rest)) s site
    have others := Block.unfolds (transparent.comp (.behind (s.inline find site).body)) rest
      (s.inline find site).next
    exact first.trans others

end

end

/-- Names that are sealed from a site on differ from those marked there. -/
theorem not_mem_of_sealed {heads : List String} {expansion : Expansion} {names : List String}
    (known : expansion.callee.function.name ∈ heads)
    (closed : ∀ name ∈ names, Sealed heads expansion.site name) (name : String) :
    expansion.callee.localName expansion.site name ∉ names :=
  fun taken => closed _ taken _ known expansion.site (Nat.le_refl _) name
    (expansion.callee.localName_eq expansion.site name)

/-- An expansion that does not take the last number of a site. -/
def Expansion.HasNext (expansion : Expansion) : Prop := expansion.site + 1 < siteLimit

instance (expansion : Expansion) : Decidable expansion.HasNext :=
  inferInstanceAs (Decidable (_ < _))

/-- The number after that of such an expansion is the next greater one. -/
theorem Expansion.HasNext.nextSite_eq {expansion : Expansion} (follows : expansion.HasNext) :
    nextSite expansion.site = expansion.site + 1 :=
  Nat.mod_eq_of_lt follows

/-- Along expansions of listed functions, none of which takes the last number, names stay
sealed from the next site on. -/
theorem Unfolds.sealed {heads counters : List String} (separated : Separated heads counters)
    {find : FunctionId → Option Inlinable}
    (listed : ∀ id callee, find id = some callee → callee.function.name ∈ heads)
    {start finish : Block} {site next : Nat} {expansions : List Expansion}
    (unfolds : Unfolds find start site expansions finish next)
    (room : ∀ expansion ∈ expansions, expansion.HasNext)
    (worded : Block.Worded (Sealed heads site) (Counts counters) start) :
    (∀ expansion ∈ expansions, expansion.callee.function.name ∈ heads ∧ site ≤ expansion.site ∧
      Block.Worded (Sealed heads expansion.site) (Counts counters) expansion.before) ∧
      site ≤ next ∧ Block.Worded (Sealed heads next) (Counts counters) finish := by
  induction unfolds with
  | done => exact ⟨by simp, Nat.le_refl _, worded⟩
  | @expand expansion later finish next found mints rest ih =>
    obtain ⟨id, found⟩ := found
    have ⟨follows, roomLater⟩ := List.forall_mem_cons.mp room
    have head := listed id expansion.callee found
    have after := mints _ _ (worded.mono fun name closed => closed.mono (Nat.le_succ _))
      (separated.sealed_expansion head expansion.site)
      fun name => .inr (minted_markOf expansion.callee.function.name expansion.site name)
    rw [follows.nextSite_eq] at ih
    obtain ⟨others, grows, finished⟩ := ih roomLater after
    refine ⟨List.forall_mem_cons.mpr ⟨⟨head, Nat.le_refl _, worded⟩, fun other made => ?_⟩,
      by omega, finished⟩
    obtain ⟨known, later, sealedLater⟩ := others other made
    exact ⟨known, by omega, sealedLater⟩

/-! ## Sweeps over programs -/

/-- The local names of a function. -/
def Function.localNames (function : Function) : List String :=
  function.params.map Parameter.name ++ Block.localNames function.body

namespace Program

/-- The names of the functions of a program. -/
def functionNames (program : Program) : List String :=
  program.functions.entries.map fun entry => entry.2.name

/-- The counters of the loops of a program. -/
def counters (program : Program) : List String :=
  program.functions.entries.flatMap fun entry => Block.counters entry.2.body

/-- A program in which no call has been expanded and no name looks like a marked one. -/
def Pristine (program : Program) : Prop :=
  ∀ entry ∈ program.functions.entries,
    entry.2.inlineSites = 0 ∧ ∀ name ∈ entry.2.localNames, ¬Minted name

instance (program : Program) : Decidable program.Pristine :=
  inferInstanceAs (Decidable (∀ entry ∈ program.functions.entries, _))

end Program

/-- A function of a known name whose local names are not marked with sites still to come. -/
structure Function.Unclaimed (heads counters : List String) (function : Function) : Prop where
  /-- The name is known. -/
  known : function.name ∈ heads
  /-- No parameter is marked with a site to come. -/
  params : ∀ name ∈ function.params.map Parameter.name, Sealed heads function.inlineSites name
  /-- No name of the body is marked with a site to come. -/
  body : Block.Worded (Sealed heads function.inlineSites) (Counts counters) function.body

/-- No function of a program has names that are marked with sites still to come. -/
def Program.Unclaimed (heads counters : List String) (program : Program) : Prop :=
  ∀ id function, program.function? id = some function → function.Unclaimed heads counters

/-- A pristine program has no names that are marked with sites. -/
theorem Program.Pristine.unclaimed {program : Program} (pristine : program.Pristine) :
    program.Unclaimed program.functionNames program.counters := by
  intro id function found
  have listed := Arena.mem_entries.mpr found
  obtain ⟨_, source⟩ := pristine _ listed
  refine ⟨List.mem_map_of_mem listed, fun name named => ?_, ?_⟩
  · exact sealed_of_not_minted (source name (List.mem_append_left _ named)) _
  · refine (Block.worded_iff function.body).mpr ⟨fun name named => ?_, fun name counts => ?_⟩
    · exact sealed_of_not_minted (source name (List.mem_append_right _ named)) _
    · exact .inl (List.mem_flatMap.mpr ⟨_, listed, counts⟩)

namespace Guided

variable {heads counters : List String} {program : Program} {id : FunctionId} {function : Function}

section

variable (tuning : Tuning) (analysis : Analysis)

/-- The expansions made in a function when the pass works on it. -/
def expansionsIn (program : Program) (id : FunctionId) : List (Function × Expansion) :=
  match program.function? id with
  | none => []
  | some function =>
    if tuning.inline then
      (Block.expansions (program.inlinable? id tuning.maxInlineSize
        (hotCallees tuning analysis id)) (fun body => body) function.body
          function.inlineSites).map (function, ·)
    else []

/-- The expansions made in functions, one after the other. -/
def expansionsFrom : List FunctionId → Progress → List (Function × Expansion)
  | [], _ => []
  | id :: rest, progress => expansionsIn tuning analysis progress.program id ++
      expansionsFrom rest (step tuning analysis progress id)

/-- The expansions that a sweep of the pass over a program makes, in order. -/
def expansions (program : Program) : List (Function × Expansion) :=
  expansionsFrom tuning analysis analysis.criticalFunctions.keys { program }

/-- No expansion of a sweep takes the last number of a site, so no counter is set back. -/
def SitesSuffice (program : Program) : Prop :=
  ∀ expanded ∈ expansions tuning analysis program, expanded.2.HasNext

instance (program : Program) : Decidable (SitesSuffice tuning analysis program) :=
  inferInstanceAs (Decidable (∀ expanded ∈ expansions tuning analysis program, _))

end

/-- Programs that sweeps of the pass lead to, as long as site numbers suffice. Each sweep has
its own tuning and looks at a new analysis. -/
inductive Sweeps (start : Program) : Program → Prop
  /-- No sweep yet. -/
  | start : Sweeps start start
  /-- One more sweep. -/
  | sweep {program : Program} (swept : Sweeps start program) (tuning : Tuning)
      {profile : Option Profile} {analysis : Analysis}
      (analyzed : program.analyze profile = .ok analysis)
      (suffice : SitesSuffice tuning analysis program) :
      Sweeps start (transform tuning program analysis).1

/-- The names of a new body are not marked with sites still to come, which are no earlier
than `least`. -/
structure Redraft.Unclaimed (heads counters : List String) (least : Nat) (draft : Redraft) :
    Prop where
  /-- No site is given out again. -/
  onward : least ≤ draft.inlineSites
  /-- No name is marked with a site to come. -/
  body : Block.Worded (Sealed heads draft.inlineSites) (Counts counters) draft.body

namespace Redraft.Unclaimed

variable {least : Nat} {draft : Redraft}

/-- Unrolling marks no name with a function. -/
theorem unrollIf (separated : Separated heads ("loop" :: counters))
    (unclaimed : draft.Unclaimed heads counters least) (wanted : Bool) (limit : Nat)
    (function : Function) : Redraft.Unclaimed heads counters least
      (if wanted then draft.unroll limit function else draft) := by
  cases wanted with
  | false => exact unclaimed
  | true =>
    have marked : CopiesAllowed (Sealed heads draft.inlineSites) (Counts counters) :=
      fun _ counts copy name => separated.sealed_copy counts copy _ name
    exact ⟨unclaimed.onward, Block.Worded.unroll marked limit _ draft.body unclaimed.body⟩

/-- Putting likely arms first marks no name. -/
theorem reorderIf (unclaimed : draft.Unclaimed heads counters least) (wanted : Bool) :
    Redraft.Unclaimed heads counters least (if wanted then draft.reorder else draft) := by
  cases wanted with
  | false => exact unclaimed
  | true => exact ⟨unclaimed.onward, Block.Worded.reorder draft.body unclaimed.body⟩

/-- Grouping loads marks no name. -/
theorem groupIf (unclaimed : draft.Unclaimed heads counters least) (wanted : Bool) :
    Redraft.Unclaimed heads counters least (if wanted then draft.group else draft) := by
  cases wanted with
  | false => exact unclaimed
  | true =>
    exact ⟨unclaimed.onward, (Block.Worded.groupNested draft.body unclaimed.body).arrange⟩

end Redraft.Unclaimed

section

variable (separated : Separated heads ("loop" :: counters))
  (unclaimed : program.Unclaimed heads counters) (found : program.function? id = some function)

include unclaimed

/-- Calls are replaced by known functions. -/
theorem known_of_inlinable {caller callee : FunctionId} {maxSize : Nat}
    {wanted : OrderedSet FunctionId} {target : Inlinable}
    (allowed : program.inlinable? caller maxSize wanted callee = some target) :
    target.function.name ∈ heads :=
  (unclaimed callee target.function (Program.inlinable?_eq_some allowed).1).known

include separated found

/-- Known functions are put in place of the calls of a function, where no name is marked
with their sites. Afterwards no name is marked with sites to come. -/
theorem sealed_of_unclaimed (maxSize : Nat) (wanted : OrderedSet FunctionId)
    (room : ∀ expansion ∈ Block.expansions (program.inlinable? id maxSize wanted)
      (fun body => body) function.body function.inlineSites, expansion.HasNext) :
    (∀ expansion ∈ Block.expansions (program.inlinable? id maxSize wanted) (fun body => body)
        function.body function.inlineSites,
      expansion.callee.function.name ∈ heads ∧ function.inlineSites ≤ expansion.site ∧
        Block.Worded (Sealed heads expansion.site) (Counts counters) expansion.before) ∧
      function.inlineSites ≤ (Block.inline (program.inlinable? id maxSize wanted) function.body
        function.inlineSites).next ∧
      Block.Worded (Sealed heads (Block.inline (program.inlinable? id maxSize wanted)
        function.body function.inlineSites).next) (Counts counters)
          (Block.inline (program.inlinable? id maxSize wanted) function.body
            function.inlineSites).body :=
  (Block.unfolds .whole function.body function.inlineSites).sealed
    ⟨separated.plain, separated.apart,
      fun head listed counter counts =>
        separated.noCounter head listed counter (List.mem_cons_of_mem _ counts)⟩
    (fun _ _ allowed => known_of_inlinable unclaimed allowed) room
    (unclaimed id function found).body

/-- Redrafting a function in which site numbers suffice leaves no name that is marked with a
site to come. -/
theorem unclaimed_redraft (tuning : Tuning) (analysis : Analysis)
    (room : ∀ expanded ∈ expansionsIn tuning analysis program id, expanded.2.HasNext) :
    Function.Unclaimed heads counters { function with
      body := (redraft tuning analysis program id function).body
      inlineSites := (redraft tuning analysis program id function).inlineSites } := by
  have old := unclaimed id function found
  let start : Redraft := { body := function.body, inlineSites := function.inlineSites }
  let find := program.inlinable? id tuning.maxInlineSize (hotCallees tuning analysis id)
  have inlined : Redraft.Unclaimed heads counters function.inlineSites
      (if tuning.inline then start.inline find else start) := by
    split
    · rename_i wanted
      simp only [expansionsIn, found, wanted, if_true, List.forall_mem_map] at room
      have expanded := sealed_of_unclaimed separated unclaimed found tuning.maxInlineSize
        (hotCallees tuning analysis id) room
      exact ⟨expanded.2.1, expanded.2.2⟩
    · exact ⟨Nat.le_refl _, old.body⟩
  have redrafted : (redraft tuning analysis program id function).Unclaimed heads counters
      function.inlineSites :=
    ((inlined.unrollIf separated tuning.unroll (min tuning.unrollThreshold maxWrittenTrips)
      function).reorderIf tuning.reorderBranches).groupIf tuning.groupLoads
  exact ⟨old.known, fun name named => (old.params name named).mono redrafted.onward,
    redrafted.body⟩

/-- The expansions made in a function in which site numbers suffice have fresh names. -/
theorem expansionsIn_fresh (tuning : Tuning) (analysis : Analysis)
    (room : ∀ expanded ∈ expansionsIn tuning analysis program id, expanded.2.HasNext) :
    ∀ expanded ∈ expansionsIn tuning analysis program id, ∀ name,
      expanded.2.callee.localName expanded.2.site name ∉
        expanded.1.params.map Parameter.name ++ Block.localNames expanded.2.before := by
  cases wanted : tuning.inline with
  | false => simp [expansionsIn, found, wanted]
  | true =>
    simp only [expansionsIn, found, wanted, if_true, List.forall_mem_map] at room ⊢
    intro expansion made
    obtain ⟨known, later, worded⟩ := (sealed_of_unclaimed separated unclaimed found
      tuning.maxInlineSize (hotCallees tuning analysis id) room).1 expansion made
    refine not_mem_of_sealed known (List.forall_mem_append.mpr ⟨fun name named => ?_, ?_⟩)
    · exact ((unclaimed id function found).params name named).mono later
    · exact ((Block.worded_iff expansion.before).mp worded).1

end

/-- What a function is after a step: what it was, or redrafted. -/
theorem function?_step {tuning : Tuning} {analysis : Analysis} {progress : Progress}
    {other : FunctionId} (found : (step tuning analysis progress id).program.function? other =
      some function) :
    progress.program.function? other = some function ∨ ∃ old,
      progress.program.function? id = some old ∧ function = { old with
        body := (redraft tuning analysis progress.program id old).body
        inlineSites := (redraft tuning analysis progress.program id old).inlineSites } := by
  unfold step at found
  cases known : progress.program.function? id with
  | none =>
    simp only [known] at found
    exact .inl found
  | some old =>
    simp only [known] at found
    split at found
    · exact .inl found
    · split at found
      · exact .inl found
      · unfold Progress.keep at found
        dsimp only at found
        cases updated : progress.program.updateFunction? id fun f => { f with
            body := (redraft tuning analysis progress.program id old).body
            inlineSites := (redraft tuning analysis progress.program id old).inlineSites } with
        | none =>
          rw [updated] at found
          exact .inl found
        | some changed =>
          rw [updated, Option.getD_some] at found
          obtain ⟨functions, arena, rfl⟩ := Option.map_eq_some_iff.mp updated
          have lookup := (Arena.get?_update arena other).symm.trans found
          split at lookup
          · obtain ⟨before, held, rfl⟩ := Option.map_eq_some_iff.mp lookup
            cases known.symm.trans held
            exact .inr ⟨old, rfl, rfl⟩
          · exact .inl lookup

section

variable (separated : Separated heads ("loop" :: counters))

include separated

/-- A step in which site numbers suffice claims no site to come. -/
theorem unclaimed_step (tuning : Tuning) (analysis : Analysis) {progress : Progress}
    (unclaimed : progress.program.Unclaimed heads counters) {id : FunctionId}
    (room : ∀ expanded ∈ expansionsIn tuning analysis progress.program id, expanded.2.HasNext) :
    (step tuning analysis progress id).program.Unclaimed heads counters := by
  intro other function found
  rcases function?_step found with same | ⟨old, known, rfl⟩
  · exact unclaimed other function same
  · exact unclaimed_redraft separated unclaimed known tuning analysis room

/-- Steps in which site numbers suffice make expansions with fresh names and claim no site
to come. -/
theorem expansionsFrom_fresh (tuning : Tuning) (analysis : Analysis) (ids : List FunctionId)
    {progress : Progress} (unclaimed : progress.program.Unclaimed heads counters)
    (room : ∀ expanded ∈ expansionsFrom tuning analysis ids progress, expanded.2.HasNext) :
    (ids.foldl (step tuning analysis) progress).program.Unclaimed heads counters ∧
      ∀ expanded ∈ expansionsFrom tuning analysis ids progress, ∀ name,
        expanded.2.callee.localName expanded.2.site name ∉
          expanded.1.params.map Parameter.name ++ Block.localNames expanded.2.before := by
  induction ids generalizing progress with
  | nil => exact ⟨unclaimed, by simp [expansionsFrom]⟩
  | cons id rest ih =>
    have ⟨roomHere, roomLater⟩ := List.forall_mem_append.mp room
    have ⟨last, later⟩ := ih (unclaimed_step separated tuning analysis unclaimed roomHere) roomLater
    refine ⟨last, List.forall_mem_append.mpr ⟨?_, later⟩⟩
    cases found : progress.program.function? id with
    | none => simp [expansionsIn, found]
    | some function => exact expansionsIn_fresh separated unclaimed found tuning analysis roomHere

/-- Sweeps in which site numbers suffice claim no site to come. -/
theorem Sweeps.unclaimed {start : Program} (swept : Sweeps start program)
    (unclaimed : start.Unclaimed heads counters) : program.Unclaimed heads counters := by
  induction swept with
  | start => exact unclaimed
  | sweep _ tuning _ suffice ih =>
    rw [transform_program]
    exact (expansionsFrom_fresh separated tuning _ _ ih suffice).1

end

/-- Expansions use fresh names: over any number of sweeps from a pristine program, with
any tuning and analysis each time, no name with the mark of an expansion occurs in the
caller when the call is expanded, if function names cannot be confused with each other
or with counters and no expansion takes the last of the 2^32 site numbers of its caller. -/
theorem expansion_names_fresh {start : Program} (pristine : start.Pristine)
    (separated : Separated start.functionNames ("loop" :: start.counters))
    (swept : Sweeps start program) (tuning : Tuning) (analysis : Analysis)
    (suffice : SitesSuffice tuning analysis program) :
    ∀ expanded ∈ expansions tuning analysis program, ∀ name,
      expanded.2.callee.localName expanded.2.site name ∉
        expanded.1.params.map Parameter.name ++ Block.localNames expanded.2.before :=
  (expansionsFrom_fresh separated tuning analysis _
    (swept.unclaimed separated pristine.unclaimed) suffice).2

/-- Expand every call and unroll. -/
def expandAll : Tuning := { Tuning.off with inline := true, inlineFrequency := 0, unroll := true }

/-- An entry point that calls `f` in a loop, which calls `f_a0`. -/
def chained : Program where
  functions.slots := [
    some {
      name := entryPoint
      body := [.loop (some "i") (.exact 2) none [.eval (.call ⟨1⟩ [])]] },
    some {
      name := "f"
      body := [
        .bind "a_1_x" (.int .w32) (.lit (.ofInt (.int .w32) 7)),
        .eval (.call ⟨2⟩ []),
        .emit 1 (.var "a_1_x")] },
    some {
      name := "f_a0"
      body := [.bind "x" (.int .w32) (.lit (.ofInt (.int .w32) 2))] }]

/-- The names of `chained` cannot be confused. A first sweep copies the body of `f` into
the entry point, at site 0, and unrolls the loop. A second one expands `f_a0` in both
copies, with names that are new to the entry point. -/
theorem expansion_names_fresh_chained :
    chained.Pristine ∧ Separated chained.functionNames ("loop" :: chained.counters) ∧
      ∃ analysis, chained.analyze none = .ok analysis ∧
        ∃ later, (transform expandAll chained analysis).1.analyze none = .ok later ∧
          ((expansions expandAll later (transform expandAll chained analysis).1).map fun expanded =>
            (expanded.1.name, expanded.2.callee.function.name, expanded.2.site)) =
              [(entryPoint, "f_a0", 1), (entryPoint, "f_a0", 2)] ∧
          ∀ expanded ∈ expansions expandAll later (transform expandAll chained analysis).1,
            ∀ name, expanded.2.callee.localName expanded.2.site name ∉
              expanded.1.params.map Parameter.name ++ Block.localNames expanded.2.before := by
  have pristine : chained.Pristine := by decide
  have separated : Separated chained.functionNames ("loop" :: chained.counters) := by decide
  obtain ⟨analysis, analyzed, suffice⟩ : ∃ analysis, chained.analyze none = .ok analysis ∧
      SitesSuffice expandAll analysis chained := ⟨_, rfl, by decide +kernel⟩
  have swept := Sweeps.start.sweep expandAll analyzed suffice
  refine ⟨pristine, separated, analysis, analyzed, ?_⟩
  cases analyzed
  exact ⟨_, rfl, by decide +kernel,
    expansion_names_fresh pristine separated swept expandAll _ (by decide +kernel)⟩

/-- As in `chained`, `f` is called and calls another function. The name of that function
begins like the mark of `f`, and a local of `f` goes on like the rest of its own mark. -/
def confused : Program where
  functions.slots := [
    some { name := entryPoint, body := [.eval (.call ⟨1⟩ [])] },
    some {
      name := "f"
      body := [
        .bind "a_1_x" (.int .w32) (.lit (.ofInt (.int .w32) 7)),
        .eval (.call ⟨2⟩ []),
        .emit 1 (.var "a_1_x")] },
    some {
      name := "f_0_a"
      body := [.bind "x" (.int .w32) (.lit (.ofInt (.int .w32) 2))] }]

/-- `confused` is consistent and pristine, but `f_0_a` mimics `f`. The first sweep names a
local of the entry point `__f_0_a_1_x`, and the second one makes up this name again. -/
theorem expansion_names_taken_confused :
    confused.fault? = none ∧ confused.Pristine ∧
      ∃ analysis, confused.analyze none = .ok analysis ∧
        ∃ later, (transform expandAll confused analysis).1.analyze none = .ok later ∧
          ∃ expanded ∈ expansions expandAll later (transform expandAll confused analysis).1,
            expanded.2.callee.localName expanded.2.site "x" = "__f_0_a_1_x" ∧
              "__f_0_a_1_x" ∈ Block.localNames expanded.2.before := by
  refine ⟨by decide, by decide, _, rfl, _, rfl, ?_⟩
  decide +kernel

end Guided

end Timebound
