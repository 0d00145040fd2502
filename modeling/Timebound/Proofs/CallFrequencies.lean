import Timebound.Proofs.CyclePath

/-!
# Exact call frequencies

A call site stands inside loops, each of which repeats it a certain number of times: as often as
the loop may turn, and once more in its condition. The worst case of a function is the sum of
these products over all sites that call it, whichever arms they stand in. Frequencies are summed
and multiplied on the way down with a cut at the largest 64-bit number, and the outcome is the
exact sum cut once (`Block.capped_callSites`), also where a cut product is multiplied again,
possibly by zero. No path through a body calls a function more often than the exact sum says
(`Block.Path.count_le`).
-/

namespace Timebound

/-! ## Cut numbers -/

/-- Cutting a summand first changes nothing. -/
theorem capped_add (first second : Nat) :
    capped (capped first + second) = capped (first + second) := by
  unfold capped
  omega

/-- Sums of numbers with the same cut have the same cut. -/
theorem capped_add_congr {first other second another : Nat} (one : capped first = capped other)
    (two : capped second = capped another) :
    capped (first + second) = capped (other + another) := by
  rw [← capped_add, one, capped_add, Nat.add_comm, ← capped_add, two, capped_add, Nat.add_comm]

/-- Cutting a factor first changes nothing: zero times anything is zero, and any other multiple
of a cut number is cut again. -/
theorem capped_mul (first second : Nat) :
    capped (capped first * second) = capped (first * second) := by
  rcases Nat.le_total first (cycleLimit - 1) with small | large
  · rw [show capped first = first from Nat.min_eq_left small]
  · rw [show capped first = cycleLimit - 1 from Nat.min_eq_right large]
    rcases Nat.eq_zero_or_pos second with rfl | some
    · rfl
    · have cut : cycleLimit - 1 ≤ (cycleLimit - 1) * second := Nat.le_mul_of_pos_right _ some
      have more : cycleLimit - 1 ≤ first * second := Nat.le_trans cut (Nat.mul_le_mul_right _ large)
      rw [capped, capped, Nat.min_eq_right cut, Nat.min_eq_right more]

/-! ## Sites -/

/-- A call in a body. -/
structure CallSite where
  /-- The function that is called. -/
  callee : FunctionId
  /-- How often each loop around the call repeats it, the outermost loop first. -/
  repeats : List Nat
  deriving DecidableEq

namespace CallSite

/-- How often a site is passed in the worst case: the product over the loops around it. -/
def times (site : CallSite) : Nat := site.repeats.foldr (· * ·) 1

/-- A site seen from outside a loop. -/
def within (turns : Nat) (site : CallSite) : CallSite :=
  { site with repeats := turns :: site.repeats }

/-- The sum over the sites that call a function. -/
def total (callee : FunctionId) (sites : List CallSite) : Nat :=
  sites.foldr (fun site rest => (if site.callee = callee then site.times else 0) + rest) 0

end CallSite

/-- The call sites of expressions that are evaluated in a row. -/
def Args.sites (args : List Expr) : List CallSite := (Args.pathCalls args).map (⟨·, []⟩)

mutual

/-- The call sites of a statement, in both arms of a branch. A loop repeats its body as often as
its bound says and its condition once more. -/
def Stmt.sites : Stmt → List CallSite
  | .bind _ _ value | .assign _ value | .setGlobal _ value | .emit _ value | .eval value =>
    Args.sites [value]
  | .store _ index value => Args.sites [index, value]
  | .branch cond thenBody elseBody _ =>
    Args.sites [cond] ++ (Block.sites thenBody ++ Block.sites elseBody)
  | .loop _ bound condition body =>
    (Args.sites condition.toList).map (.within (bound.limit?.getD 0 + 1)) ++
      (Block.sites body).map (.within (bound.limit?.getD 0))
  | .ret value => Args.sites value.toList

/-- The call sites of a block. -/
def Block.sites : List Stmt → List CallSite
  | [] => []
  | s :: rest => s.sites ++ Block.sites rest

end

/-- The number of calls of a function in the worst case of a block, without any cut. -/
def Block.worstCalls (callee : FunctionId) (block : Block) : Nat :=
  CallSite.total callee (Block.sites block)

namespace CallSite

variable (callee : FunctionId)

theorem total_cons (site : CallSite) (rest : List CallSite) :
    total callee (site :: rest) =
      (if site.callee = callee then site.times else 0) + total callee rest := rfl

/-- Sums over sites in a row add up. -/
theorem total_append (first second : List CallSite) :
    total callee (first ++ second) = total callee first + total callee second := by
  induction first with
  | nil => exact (Nat.zero_add _).symm
  | cons site rest ih => rw [List.cons_append, total_cons, total_cons, ih, Nat.add_assoc]

/-- A loop around sites multiplies their sum. -/
theorem total_within (turns : Nat) (sites : List CallSite) :
    total callee (sites.map (within turns)) = turns * total callee sites := by
  induction sites with
  | nil => rfl
  | cons site rest ih =>
    have one : (if (site.within turns).callee = callee then (site.within turns).times else 0) =
        turns * if site.callee = callee then site.times else 0 := by
      by_cases same : site.callee = callee <;> simp [within, times, same]
    rw [List.map_cons, total_cons, total_cons, one, ih, Nat.mul_add]

/-- Outside loops every site counts once. -/
theorem total_plain (calls : List FunctionId) :
    total callee (calls.map (⟨·, []⟩)) = calls.count callee := by
  induction calls with
  | nil => rfl
  | cons call rest ih =>
    rw [List.map_cons, total_cons, ih, List.count_cons, Nat.add_comm]
    simp [times]

end CallSite

/-! ## Sites are call nodes -/

mutual

/-- Evaluating an expression makes the calls among its nodes. -/
theorem Expr.pathCalls_perm : ∀ e : Expr, e.pathCalls.Perm (e.nodes.filterMap Expr.callee?)
  | .lit _ | .var _ | .global _ => .nil
  | .load _ index => index.pathCalls_perm
  | .unary _ _ operand => operand.pathCalls_perm
  | .binary op type left right => by
    have both : (Expr.binary op type left right).nodes.filterMap Expr.callee? =
        left.nodes.filterMap Expr.callee? ++ right.nodes.filterMap Expr.callee? :=
      List.filterMap_append
    rw [Expr.pathCalls, both]
    exact left.pathCalls_perm.append right.pathCalls_perm
  | .call callee args =>
    (List.perm_append_singleton callee _).trans ((Args.pathCalls_perm args).cons callee)

/-- Evaluating arguments makes the calls among their nodes. -/
theorem Args.pathCalls_perm : ∀ args : List Expr,
    (Args.pathCalls args).Perm ((Args.nodes args).filterMap Expr.callee?)
  | [] => .nil
  | arg :: args => by
    simpa [Args.pathCalls, Args.nodes] using arg.pathCalls_perm.append (Args.pathCalls_perm args)

end

/-- The sites of expressions in a row are their call nodes. -/
theorem Args.sites_perm (args : List Expr) :
    ((Args.sites args).map CallSite.callee).Perm ((Args.nodes args).filterMap Expr.callee?) := by
  rw [Args.sites, List.map_map]
  simpa [Function.comp_def] using Args.pathCalls_perm args

/-- Loops around sites do not change what is called. -/
theorem CallSite.map_within (turns : Nat) (sites : List CallSite) :
    (sites.map (within turns)).map callee = sites.map callee := by
  rw [List.map_map]
  rfl

mutual

/-- The sites of a statement are its call nodes. -/
theorem Stmt.sites_perm : ∀ s : Stmt,
    (s.sites.map CallSite.callee).Perm (s.nodes.filterMap Expr.callee?)
  | .bind _ _ value | .assign _ value | .setGlobal _ value | .emit _ value | .eval value => by
    simpa [Stmt.sites, Stmt.nodes, Args.nodes] using Args.sites_perm [value]
  | .store _ index value => by
    simpa [Stmt.sites, Stmt.nodes, Args.nodes] using Args.sites_perm [index, value]
  | .branch cond thenBody elseBody _ => by
    have arms := (Block.sites_perm thenBody).append (Block.sites_perm elseBody)
    simpa [Stmt.sites, Stmt.nodes, Args.nodes] using (Args.sites_perm [cond]).append arms
  | .loop _ _ condition body => by
    have parts := (Args.sites_perm condition.toList).append (Block.sites_perm body)
    rw [Args.nodes_toList, ← List.filterMap_append] at parts
    rwa [Stmt.sites, List.map_append, CallSite.map_within, CallSite.map_within]
  | .ret value => by
    simpa [Stmt.sites, Stmt.nodes, Args.nodes_toList] using Args.sites_perm value.toList

/-- The sites of a block are its call nodes. -/
theorem Block.sites_perm : ∀ block : List Stmt,
    ((Block.sites block).map CallSite.callee).Perm ((Block.nodes block).filterMap Expr.callee?)
  | [] => .nil
  | s :: rest => by
    simpa [Block.sites, Block.nodes] using (Stmt.sites_perm s).append (Block.sites_perm rest)

end

/-- A function has a site in a block exactly when the block calls it. -/
theorem Block.mem_sites {block : Block} {callee : FunctionId} :
    callee ∈ (Block.sites block).map CallSite.callee ↔ callee ∈ Block.callees block := by
  rw [(Block.sites_perm block).mem_iff, Block.callees, List.mem_eraseDups]

mutual

/-- All calls of an expression are made at its frequency. -/
theorem Expr.callSites_eq (frequency : Nat) : ∀ e : Expr,
    e.callSites frequency = e.pathCalls.map fun call => (call, frequency)
  | .lit _ | .var _ | .global _ => rfl
  | .load _ index => index.callSites_eq frequency
  | .unary _ _ operand => operand.callSites_eq frequency
  | .binary _ _ left right => by
    rw [Expr.callSites, Expr.pathCalls, List.map_append, left.callSites_eq frequency,
      right.callSites_eq frequency]
  | .call callee args => by
    rw [Expr.callSites, Expr.pathCalls, List.map_append, Args.callSites_eq frequency args]
    rfl

/-- All calls of arguments are made at their frequency. -/
theorem Args.callSites_eq (frequency : Nat) : ∀ args : List Expr,
    Args.callSites frequency args = (Args.pathCalls args).map fun call => (call, frequency)
  | [] => rfl
  | arg :: args => by
    rw [Args.callSites, Args.pathCalls, List.map_append, arg.callSites_eq frequency,
      Args.callSites_eq frequency args]

end

/-- The calls of expressions in a row, all made at their frequency. -/
theorem Args.flatMap_callSites (frequency : Nat) (args : List Expr) :
    args.flatMap (Expr.callSites frequency) =
      (Args.pathCalls args).map fun call => (call, frequency) := by
  rw [← Args.callSites_eq]
  induction args with
  | nil => rfl
  | cons arg args ih => rw [Args.callSites, ← ih, List.flatMap_cons]

/-- Expressions in a row call what they have sites of. -/
theorem Args.callees_callSites (frequency : Nat) (args : List Expr) :
    (args.flatMap (Expr.callSites frequency)).map (·.1) =
      (Args.sites args).map CallSite.callee := by
  rw [Args.flatMap_callSites, Args.sites, List.map_map, List.map_map]
  rfl

/-- An expression calls what it has sites of. -/
theorem Expr.callees_callSites (frequency : Nat) (e : Expr) :
    (e.callSites frequency).map (·.1) = (Args.sites [e]).map CallSite.callee := by
  rw [← Args.callees_callSites frequency, List.flatMap_singleton]

mutual

/-- A statement calls what it has sites of, at any frequency. -/
theorem Stmt.callees_callSites : ∀ (frequency : Nat) (s : Stmt),
    (s.callSites frequency).map (·.1) = s.sites.map CallSite.callee
  | frequency, .bind _ _ value | frequency, .assign _ value | frequency, .setGlobal _ value
  | frequency, .emit _ value | frequency, .eval value => value.callees_callSites frequency
  | frequency, .store _ index value => by
    rw [Stmt.callSites, Stmt.sites, ← Args.callees_callSites frequency]
    simp
  | frequency, .branch cond thenBody elseBody _ => by
    simp only [Stmt.callSites, Stmt.sites, List.map_append, cond.callees_callSites,
      Block.callees_callSites frequency thenBody, Block.callees_callSites frequency elseBody]
  | frequency, .loop _ _ condition body => by
    simp only [Stmt.callSites, Stmt.sites, List.map_append, Args.callees_callSites,
      CallSite.map_within, Block.callees_callSites _ body]
  | frequency, .ret value => Args.callees_callSites frequency value.toList

/-- A block calls what it has sites of, at any frequency. -/
theorem Block.callees_callSites : ∀ (frequency : Nat) (block : List Stmt),
    (Block.callSites frequency block).map (·.1) = (Block.sites block).map CallSite.callee
  | _, [] => rfl
  | frequency, s :: rest => by
    rw [Block.callSites, Block.sites, List.map_append, List.map_append,
      Stmt.callees_callSites frequency s, Block.callees_callSites frequency rest]

end

/-! ## Cut sums -/

section Sums

variable {callee : FunctionId}

/-- The sum of the frequencies at which a function is called. -/
def sitesTotal (callee : FunctionId) (sites : List (FunctionId × Nat)) : Nat :=
  sites.foldr (fun site rest => (if site.1 = callee then site.2 else 0) + rest) 0

theorem sitesTotal_cons (site : FunctionId × Nat) (rest : List (FunctionId × Nat)) :
    sitesTotal callee (site :: rest) =
      (if site.1 = callee then site.2 else 0) + sitesTotal callee rest := rfl

/-- Sums over sites in a row add up. -/
theorem sitesTotal_append (first second : List (FunctionId × Nat)) :
    sitesTotal callee (first ++ second) = sitesTotal callee first + sitesTotal callee second := by
  induction first with
  | nil => exact (Nat.zero_add _).symm
  | cons site rest ih => rw [List.cons_append, sitesTotal_cons, sitesTotal_cons, ih, Nat.add_assoc]

/-- Sites of one frequency add up to a multiple of it. -/
theorem sitesTotal_const (frequency : Nat) (calls : List FunctionId) :
    sitesTotal callee (calls.map fun call => (call, frequency)) =
      frequency * calls.count callee := by
  induction calls with
  | nil => rfl
  | cons call rest ih =>
    rw [List.map_cons, sitesTotal_cons, ih, List.count_cons, Nat.mul_add, Nat.add_comm]
    by_cases same : call = callee <;> simp [same]

/-- Expressions in a row call a function as often as they have sites of it, times their
frequency. -/
theorem Args.sitesTotal_callSites (frequency : Nat) (args : List Expr) :
    sitesTotal callee (args.flatMap (Expr.callSites frequency)) =
      frequency * CallSite.total callee (Args.sites args) := by
  rw [Args.flatMap_callSites, sitesTotal_const, Args.sites, CallSite.total_plain]

/-- One expression calls a function as often as it has sites of it, times its frequency. -/
theorem Expr.sitesTotal_callSites (frequency : Nat) (e : Expr) :
    sitesTotal callee (e.callSites frequency) =
      frequency * CallSite.total callee (Args.sites [e]) := by
  rw [← Args.sitesTotal_callSites, List.flatMap_singleton]

mutual

/-- The frequencies of a statement add up to the exact sum, but for the cut. -/
theorem Stmt.capped_callSites : ∀ (frequency : Nat) (s : Stmt),
    capped (sitesTotal callee (s.callSites frequency)) =
      capped (frequency * CallSite.total callee s.sites)
  | frequency, .bind _ _ value | frequency, .assign _ value | frequency, .setGlobal _ value
  | frequency, .emit _ value | frequency, .eval value =>
    congrArg capped (value.sitesTotal_callSites frequency)
  | frequency, .store _ index value => by
    have both : [index, value].flatMap (Expr.callSites frequency) =
        index.callSites frequency ++ value.callSites frequency := by simp
    rw [Stmt.callSites, Stmt.sites, ← both, Args.sitesTotal_callSites]
  | frequency, .branch cond thenBody elseBody _ => by
    have arms := capped_add_congr (Block.capped_callSites frequency thenBody)
      (Block.capped_callSites frequency elseBody)
    rw [← Nat.mul_add, ← CallSite.total_append] at arms
    rw [Stmt.callSites, Stmt.sites, sitesTotal_append, sitesTotal_append, CallSite.total_append,
      Nat.mul_add, cond.sitesTotal_callSites]
    exact capped_add_congr rfl arms
  | frequency, .loop _ bound condition body => by
    generalize trips : bound.limit?.getD 0 = turns
    have tests : capped (sitesTotal callee (condition.toList.flatMap
        (Expr.callSites (capped (capped (frequency * turns) + frequency))))) =
        capped (frequency *
          ((turns + 1) * CallSite.total callee (Args.sites condition.toList))) := by
      rw [Args.sitesTotal_callSites, capped_mul, ← Nat.mul_assoc, Nat.mul_succ, ← capped_mul,
        capped_add, capped_mul]
    have bodies : capped (sitesTotal callee (Block.callSites (capped (frequency * turns)) body)) =
        capped (frequency * (turns * CallSite.total callee (Block.sites body))) := by
      rw [Block.capped_callSites, capped_mul, Nat.mul_assoc]
    rw [Stmt.callSites, Stmt.sites, trips, sitesTotal_append, CallSite.total_append,
      CallSite.total_within, CallSite.total_within, Nat.mul_add]
    exact capped_add_congr tests bodies
  | frequency, .ret value => congrArg capped (Args.sitesTotal_callSites frequency value.toList)

/-- The frequencies of a block add up to the exact sum, but for the cut. -/
theorem Block.capped_callSites : ∀ (frequency : Nat) (block : List Stmt),
    capped (sitesTotal callee (Block.callSites frequency block)) =
      capped (frequency * CallSite.total callee (Block.sites block))
  | frequency, [] => congrArg capped (Nat.mul_zero frequency).symm
  | frequency, s :: rest => by
    rw [Block.callSites, Block.sites, sitesTotal_append, CallSite.total_append, Nat.mul_add]
    exact capped_add_congr (Stmt.capped_callSites frequency s)
      (Block.capped_callSites frequency rest)

end

/-- A function without a site adds nothing. -/
theorem sitesTotal_eq_zero {sites : List (FunctionId × Nat)} (absent : callee ∉ sites.map (·.1)) :
    sitesTotal callee sites = 0 := by
  induction sites with
  | nil => rfl
  | cons site rest ih =>
    rw [List.map_cons, List.mem_cons, not_or] at absent
    obtain ⟨apart, later⟩ := absent
    rw [sitesTotal_cons, if_neg (Ne.symm apart), ih later]

/-- Adding up sites with a cut at every step cuts the sum once. Functions without a site stay as
they were. -/
theorem get?_foldl_tally (sites : List (FunctionId × Nat)) (tally : Table FunctionId Nat) :
    (sites.foldl (fun tally site =>
      tally.alter site.1 fun seen => some (capped (seen.getD 0 + site.2))) tally).get? callee =
      if callee ∈ sites.map (·.1)
      then some (capped ((tally.get? callee).getD 0 + sitesTotal callee sites))
      else tally.get? callee := by
  induction sites generalizing tally with
  | nil => simp
  | cons site rest ih =>
    rw [List.foldl_cons, ih, Table.get?_alter, sitesTotal_cons]
    simp only [Std.LawfulEqOrd.compare_eq_iff_eq, List.map_cons, List.mem_cons]
    by_cases same : callee = site.1
    · subst same
      by_cases again : site.1 ∈ rest.map (·.1)
      · simp [again, capped_add, Nat.add_assoc]
      · simp [again, sitesTotal_eq_zero again]
    · rw [if_neg same, if_neg (Ne.symm same), Nat.zero_add]
      simp only [same, false_or]

/-- What is tallied for a function is the sum over its sites, cut once. -/
theorem get?_tallySites (sites : List (FunctionId × Nat)) :
    (tallySites sites).get? callee =
      if callee ∈ sites.map (·.1) then some (capped (sitesTotal callee sites)) else none := by
  rw [tallySites, get?_foldl_tally, Table.get?_empty, Option.getD_none, Nat.zero_add]

end Sums

/-! ## Sites on a path -/

section Paths

/-- Expressions in a row call a function as often as they have sites of it. -/
theorem Args.total_sites (callee : FunctionId) (args : List Expr) :
    CallSite.total callee (Args.sites args) = (Args.pathCalls args).count callee :=
  CallSite.total_plain callee (Args.pathCalls args)

/-- One expression calls a function as often as it has sites of it. -/
theorem Expr.total_sites (callee : FunctionId) (e : Expr) :
    CallSite.total callee (Args.sites [e]) = e.pathCalls.count callee := by
  rw [Args.total_sites, Args.pathCalls, Args.pathCalls, List.append_nil]

variable {callee : FunctionId}

mutual

/-- A path through a statement calls a function no more often than its sites say. -/
theorem Stmt.Path.count_le : ∀ {s : Stmt} {cycles : Nat} {calls : List FunctionId} {ends : Bool},
    Stmt.Path s cycles calls ends → calls.count callee ≤ CallSite.total callee s.sites
  | _, _, _, _, .bind _ _ value | _, _, _, _, .assign _ value | _, _, _, _, .setGlobal _ value
  | _, _, _, _, .emit _ value | _, _, _, _, .eval value =>
    Nat.le_of_eq (value.total_sites callee).symm
  | _, _, _, _, .store _ index value => by
    rw [Stmt.sites, Args.total_sites]
    simp [Args.pathCalls]
  | _, _, _, _, .branchThen cond arm => by
    have inner := Block.Path.count_le arm
    rw [Stmt.sites, CallSite.total_append, CallSite.total_append, cond.total_sites,
      List.count_append, cond.pathCalls_guard]
    omega
  | _, _, _, _, .branchElse cond arm => by
    have inner := Block.Path.count_le arm
    rw [Stmt.sites, CallSite.total_append, CallSite.total_append, cond.total_sites,
      List.count_append, cond.pathCalls_guard]
    omega
  | _, _, _, _, .loop limit turns => by
    have all := Turns.count_le turns
    rw [Stmt.sites, limit, CallSite.total_append, CallSite.total_within, CallSite.total_within]
    exact all
  | _, _, _, _, .ret value => Nat.le_of_eq (Args.total_sites callee value.toList).symm

/-- A path through a block calls a function no more often than its sites say. -/
theorem Block.Path.count_le : ∀ {previous : Option Stmt} {block : Block} {cycles : Nat}
    {calls : List FunctionId} {ends : Bool}, Block.Path previous block cycles calls ends →
      calls.count callee ≤ CallSite.total callee (Block.sites block)
  | _, _, _, _, _, .nil => Nat.zero_le _
  | _, _, _, _, _, .last first => by
    rw [Block.sites, CallSite.total_append]
    exact Nat.le_trans (Stmt.Path.count_le first) (Nat.le_add_right _ _)
  | _, _, _, _, _, .next first follow => by
    rw [Block.sites, CallSite.total_append, List.count_append]
    exact Nat.add_le_add (Stmt.Path.count_le first) (Block.Path.count_le follow)

/-- A path through iterations passes the sites of the body once an iteration, and those of the
condition once more at the end. -/
theorem Turns.count_le : ∀ {condition : Option Expr} {body : Block} {trips cycles : Nat}
    {calls : List FunctionId} {ends : Bool}, Turns condition body trips cycles calls ends →
      calls.count callee ≤ (trips + 1) * CallSite.total callee (Args.sites condition.toList) +
        trips * CallSite.total callee (Block.sites body)
  | _, _, _, _, _, _, .done | _, _, _, _, _, _, .leave => Nat.zero_le _
  | _, _, _, _, _, _, .fail condition => by
    have once := condition.total_sites callee
    rw [Option.toList_some, once, Nat.succ_mul]
    omega
  | condition, _, _, _, _, _, .turn once again => by
    have here := Block.Path.count_le once
    have later := Turns.count_le again
    have test := Args.total_sites callee condition.toList
    rw [List.count_append, List.count_append]
    simp only [Nat.succ_mul] at later ⊢
    omega
  | condition, _, trips + 1, _, _, _, .ret once => by
    have here := Block.Path.count_le once
    have test := Args.total_sites callee condition.toList
    rw [List.count_append]
    simp only [Nat.succ_mul]
    omega

end

end Paths

/-! ## Functions -/

namespace Function

/-- The callees of a function have frequencies: their exact sums, cut once. -/
theorem get?_callFrequencies (function : Function) (callee : FunctionId) :
    function.callFrequencies.get? callee =
      if callee ∈ function.callees then some (capped (Block.worstCalls callee function.body))
      else none := by
  have exact : capped (sitesTotal callee (Block.callSites 1 function.body)) =
      capped (Block.worstCalls callee function.body) := by
    rw [Block.capped_callSites, Nat.one_mul, Block.worstCalls]
  rw [callFrequencies, get?_tallySites, Block.callees_callSites, exact]
  simp only [Block.mem_sites]
  rfl

/-- The frequency of a callee is the number of its calls in the worst case, cut at the largest
64-bit number: the sum, over all its call sites in the body, of the product of what the loops
around the site repeat it by, where a loop repeats its condition once more than its body. Only
callees have a frequency. No path through the body, however it takes its branches, leaves its
loops and returns, calls a function more often than the sum says. -/
theorem callFrequencies_exact (function : Function) (callee : FunctionId) :
    function.callFrequencies.get? callee =
      (if callee ∈ function.callees
        then some (min (Block.worstCalls callee function.body) (cycleLimit - 1)) else none) ∧
    ∀ cycles calls ends, Block.Path none function.body cycles calls ends →
      calls.count callee ≤ Block.worstCalls callee function.body :=
  ⟨function.get?_callFrequencies callee, fun _ _ _ path => path.count_le⟩

end Function

/-- Two nested loops of 2^32 turns each, a loop of no turns around others, and a branch that calls
in its condition and in both arms. -/
def patrol : Function where
  name := "patrol"
  params := [⟨"more", .bool⟩]
  body := [
    .loop none (.declared 4294967296) (some (.var "more")) [
      .loop none (.declared 4294967296) (some (.call ⟨1⟩ [])) [.eval (.call ⟨2⟩ [])]],
    .loop none (.exact 0) none [
      .loop none (.exact 18446744073709551615) none [
        .loop none (.exact 2) none [.eval (.call ⟨3⟩ [])]]],
    .branch (.not (.call ⟨1⟩ [])) [.eval (.call ⟨2⟩ [])] [.ret (some (.call ⟨2⟩ []))] none]

/-- The calls in the two nested loops go beyond 64 bits and are cut; those in the loop of no turns
have the frequency zero. A path that turns each of the first loops once and takes the second arm
stays below the exact sums. -/
theorem Function.callFrequencies_exact_patrol :
    patrol.callFrequencies.get? ⟨1⟩ = some 18446744073709551615 ∧
    patrol.callFrequencies.get? ⟨2⟩ = some 18446744073709551615 ∧
    Block.worstCalls ⟨2⟩ patrol.body = 18446744073709551618 ∧
    patrol.callFrequencies.get? ⟨3⟩ = some 0 ∧ patrol.callFrequencies.get? ⟨4⟩ = none ∧
    ∃ cycles, Block.Path none patrol.body cycles [⟨1⟩, ⟨2⟩, ⟨1⟩, ⟨1⟩, ⟨2⟩] true ∧
      [⟨1⟩, ⟨2⟩, ⟨1⟩, ⟨1⟩, ⟨2⟩].count (⟨2⟩ : FunctionId) ≤ Block.worstCalls ⟨2⟩ patrol.body := by
  have turn : Block.Path none [.eval (.call ⟨2⟩ [])] 10 [⟨2⟩] false :=
    .next (.eval (.call ⟨2⟩ [])) .nil
  have round : Block.Path none
      [.loop none (.declared 4294967296) (some (.call ⟨1⟩ [])) [.eval (.call ⟨2⟩ [])]]
      35 [⟨1⟩, ⟨2⟩, ⟨1⟩] false :=
    .next (.loop rfl (.turn turn (.fail _))) .nil
  have path : Block.Path none patrol.body _ [⟨1⟩, ⟨2⟩, ⟨1⟩, ⟨1⟩, ⟨2⟩] true :=
    .next (.loop rfl (.turn round .leave)) (.next (.loop rfl .done)
      (.last (.branchElse _ (.last (.ret _)))))
  have known (callee : FunctionId) := (patrol.callFrequencies_exact callee).1
  exact ⟨(known ⟨1⟩).trans (by decide), (known ⟨2⟩).trans (by decide), by decide,
    (known ⟨3⟩).trans (by decide), (known ⟨4⟩).trans (by decide),
    _, path, (patrol.callFrequencies_exact ⟨2⟩).2 _ _ _ path⟩

end Timebound
