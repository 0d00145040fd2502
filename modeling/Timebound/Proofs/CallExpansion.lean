import Mathlib.Data.Finset.Card
import Timebound.Proofs.EffectWork

/-!
# Expansion of calls

What a call stands for while functions are being expanded, for effects and for work
alike. Bodies depend on their callees only, depth beyond the number of functions makes
no difference, and where calls are layered it does not matter which functions above are
active (`expandCalls_active`). So new bodies that stand for what the old ones stood for
can be put into a program one after the other (`expandCalls_update`).
-/

namespace Timebound

/-- A function calls another one. -/
def View.Calls (view : View) (caller callee : FunctionId) : Prop :=
  ∃ function, view.function? caller = some function ∧ callee ∈ function.callees

/-! ## Dependence on callees -/

section Callees

variable {opened other : FunctionId → Option (Trace → Trace)}

mutual

/-- The effects of an expression depend on the functions it calls only. -/
theorem Expr.effects_congr : ∀ e : Expr,
    (∀ id args, .call id args ∈ e.nodes → opened id = other id) →
      e.effects opened = e.effects other
  | .lit _, _ | .var _, _ | .global _, _ => rfl
  | .load _ index, same => by
    have inner := Expr.effects_congr index fun id args called =>
      same id args (by simp [Expr.nodes, called])
    funext trace
    simp only [Expr.effects, inner]
  | .unary _ _ operand, same => by
    have inner := Expr.effects_congr operand fun id args called =>
      same id args (by simp [Expr.nodes, called])
    funext trace
    simp only [Expr.effects, inner]
  | .binary _ _ left right, same => by
    have first := Expr.effects_congr left fun id args called =>
      same id args (by simp [Expr.nodes, called])
    have second := Expr.effects_congr right fun id args called =>
      same id args (by simp [Expr.nodes, called])
    funext trace
    simp only [Expr.effects, first, second]
  | .call callee passed, same => by
    have inner := Args.effects_congr passed fun id args called =>
      same id args (by simp [Expr.nodes, called])
    have replaced := same callee passed (by simp [Expr.nodes])
    funext trace
    simp only [Expr.effects, inner, replaced]

/-- The effects of arguments depend on the functions they call only. -/
theorem Args.effects_congr : ∀ passed : List Expr,
    (∀ id args, .call id args ∈ Args.nodes passed → opened id = other id) →
      Args.effects opened passed = Args.effects other passed
  | [], _ => rfl
  | arg :: passed, same => by
    have first := Expr.effects_congr arg fun id args called =>
      same id args (by simp [Args.nodes, called])
    have others := Args.effects_congr passed fun id args called =>
      same id args (by simp [Args.nodes, called])
    funext trace
    simp only [Args.effects, first, others]

end

mutual

/-- The effects of a statement depend on the functions it calls only. -/
theorem Stmt.effects_congr : ∀ s : Stmt,
    (∀ id args, .call id args ∈ s.nodes → opened id = other id) →
      s.effects opened = s.effects other
  | .bind _ _ value, same | .assign _ value, same | .eval value, same
  | .setGlobal _ value, same | .emit _ value, same => by
    have inner := Expr.effects_congr value fun id args called =>
      same id args (by simp [Stmt.nodes, called])
    funext trace
    simp only [Stmt.effects, inner]
  | .store _ index value, same => by
    have first := Expr.effects_congr index fun id args called =>
      same id args (by simp [Stmt.nodes, called])
    have second := Expr.effects_congr value fun id args called =>
      same id args (by simp [Stmt.nodes, called])
    funext trace
    simp only [Stmt.effects, first, second]
  | .branch cond thenBody elseBody _, same => by
    have decided := Expr.effects_congr cond.guard fun id args called =>
      same id args (by simp [Stmt.nodes, cond.nodes_guard_subset called])
    have thenSame := Block.effects_congr thenBody fun id args called =>
      same id args (by simp [Stmt.nodes, called])
    have elseSame := Block.effects_congr elseBody fun id args called =>
      same id args (by simp [Stmt.nodes, called])
    funext trace
    simp only [Stmt.effects, decided, thenSame, elseSame]
  | .loop _ bound condition body, same => by
    have decided := Args.effects_congr condition.toList fun id args called =>
      same id args (by rw [Args.nodes_toList] at called; simp [Stmt.nodes, called])
    have bodySame := Block.effects_congr body fun id args called =>
      same id args (by simp [Stmt.nodes, called])
    funext trace
    simp only [Stmt.effects, decided, bodySame]
  | .ret value, same => by
    have inner := Args.effects_congr value.toList fun id args called =>
      same id args (by rw [Args.nodes_toList] at called; simp [Stmt.nodes, called])
    funext trace
    simp only [Stmt.effects, inner]

/-- The effects of a block depend on the functions it calls only. -/
theorem Block.effects_congr : ∀ block : Block,
    (∀ id args, .call id args ∈ Block.nodes block → opened id = other id) →
      Block.effects opened block = Block.effects other block
  | [], _ => rfl
  | s :: rest, same => by
    have first := Stmt.effects_congr s fun id args called =>
      same id args (by simp [Block.nodes, called])
    have others := Block.effects_congr rest fun id args called =>
      same id args (by simp [Block.nodes, called])
    funext trace
    simp only [Block.effects, first, others]

end

end Callees

section Work

variable {price other : FunctionId → Nat}

mutual

/-- The work for an expression depends on the functions it calls only. -/
theorem Expr.work_congr : ∀ e : Expr,
    (∀ id args, .call id args ∈ e.nodes → price id = other id) → e.work price = e.work other
  | .lit _, _ | .var _, _ | .global _, _ => rfl
  | .load _ index, same => by
    have inner := Expr.work_congr index fun id args called =>
      same id args (by simp [Expr.nodes, called])
    rw [Expr.work, Expr.work, inner]
  | .unary _ _ operand, same => by
    have inner := Expr.work_congr operand fun id args called =>
      same id args (by simp [Expr.nodes, called])
    rw [Expr.work, Expr.work, inner]
  | .binary _ _ left right, same => by
    have first := Expr.work_congr left fun id args called =>
      same id args (by simp [Expr.nodes, called])
    have second := Expr.work_congr right fun id args called =>
      same id args (by simp [Expr.nodes, called])
    rw [Expr.work, Expr.work, first, second]
  | .call callee passed, same => by
    have inner := Args.work_congr passed fun id args called =>
      same id args (by simp [Expr.nodes, called])
    have replaced := same callee passed (by simp [Expr.nodes])
    rw [Expr.work, Expr.work, inner, replaced]

/-- The work for arguments depends on the functions they call only. -/
theorem Args.work_congr : ∀ passed : List Expr,
    (∀ id args, .call id args ∈ Args.nodes passed → price id = other id) →
      Args.work price passed = Args.work other passed
  | [], _ => rfl
  | arg :: passed, same => by
    have first := Expr.work_congr arg fun id args called =>
      same id args (by simp [Args.nodes, called])
    have others := Args.work_congr passed fun id args called =>
      same id args (by simp [Args.nodes, called])
    rw [Args.work, Args.work, first, others]

end

mutual

/-- The work for a statement depends on the functions it calls only. -/
theorem Stmt.work_congr : ∀ s : Stmt,
    (∀ id args, .call id args ∈ s.nodes → price id = other id) → s.work price = s.work other
  | .bind _ _ value, same | .assign _ value, same | .eval value, same
  | .setGlobal _ value, same | .emit _ value, same => by
    have inner := Expr.work_congr value fun id args called =>
      same id args (by simp [Stmt.nodes, called])
    rw [Stmt.work, Stmt.work, inner]
  | .store _ index value, same => by
    have first := Expr.work_congr index fun id args called =>
      same id args (by simp [Stmt.nodes, called])
    have second := Expr.work_congr value fun id args called =>
      same id args (by simp [Stmt.nodes, called])
    rw [Stmt.work, Stmt.work, first, second]
  | .branch cond thenBody elseBody _, same => by
    have decided := Expr.work_congr cond.guard fun id args called =>
      same id args (by simp [Stmt.nodes, cond.nodes_guard_subset called])
    have thenSame := Block.work_congr thenBody fun id args called =>
      same id args (by simp [Stmt.nodes, called])
    have elseSame := Block.work_congr elseBody fun id args called =>
      same id args (by simp [Stmt.nodes, called])
    rw [Stmt.work, Stmt.work, decided, thenSame, elseSame]
  | .loop _ bound condition body, same => by
    have decided := Args.work_congr condition.toList fun id args called =>
      same id args (by rw [Args.nodes_toList] at called; simp [Stmt.nodes, called])
    have bodySame := Block.work_congr body fun id args called =>
      same id args (by simp [Stmt.nodes, called])
    rw [Stmt.work, Stmt.work, decided, bodySame]
  | .ret value, same => by
    have inner := Args.work_congr value.toList fun id args called =>
      same id args (by rw [Args.nodes_toList] at called; simp [Stmt.nodes, called])
    rw [Stmt.work, Stmt.work, inner]

/-- The work for a block depends on the functions it calls only. -/
theorem Block.work_congr : ∀ block : Block,
    (∀ id args, .call id args ∈ Block.nodes block → price id = other id) →
      Block.work price block = Block.work other block
  | [], _ => rfl
  | s :: rest, same => by
    have first := Stmt.work_congr s fun id args called =>
      same id args (by simp [Block.nodes, called])
    have others := Block.work_congr rest fun id args called =>
      same id args (by simp [Block.nodes, called])
    rw [Block.work, Block.work, first, others]

end

end Work

/-- A meaning of blocks that depends on what their callees stand for only. -/
def DependsOnCallees {β : Type} (make : (FunctionId → β) → Block → β) : Prop :=
  ∀ opened other block, (∀ id ∈ Block.callees block, opened id = other id) →
    make opened block = make other block

/-- The effects that replace a call depend on callees only. -/
theorem effects_dependsOnCallees :
    DependsOnCallees fun opened block => some (Block.effects opened block) := by
  intro opened other block same
  have inner := Block.effects_congr block fun id args called =>
    same id (Block.mem_callees.mpr ⟨args, called⟩)
  simp only [inner]

/-- The work for what replaces a call depends on callees only. -/
theorem work_dependsOnCallees :
    DependsOnCallees fun price block => 1 + Block.work price block := by
  intro price other block same
  have inner := Block.work_congr block fun id args called =>
    same id (Block.mem_callees.mpr ⟨args, called⟩)
  simp only [inner]

/-! ## Depth -/

/-- All functions that can be found have slots below a size. -/
def FindsBelow (lookup : FunctionId → Option Function) (size : Nat) : Prop :=
  ∀ id function, lookup id = some function → id.slot < size

/-- The number of slots below a size whose functions are not active. -/
def room (size : Nat) (active : List FunctionId) : Nat :=
  ((Finset.range size).filter fun slot => (⟨slot⟩ : FunctionId) ∉ active).card

/-- There is no more room than there are slots. -/
theorem room_le (size : Nat) (active : List FunctionId) : room size active ≤ size := by
  have counted := Finset.card_filter_le (Finset.range size)
    fun slot => (⟨slot⟩ : FunctionId) ∉ active
  rwa [Finset.card_range] at counted

/-- When a function becomes active, fewer places hold functions that are not. -/
theorem card_idle_cons_lt {ι : Type} {places : Finset ι} (held : ι → FunctionId)
    {active : List FunctionId} {place : ι} (inside : place ∈ places) (idle : held place ∉ active) :
    (places.filter fun other => held other ∉ held place :: active).card <
      (places.filter fun other => held other ∉ active).card := by
  apply Finset.card_lt_card
  have fewer : places.filter (fun other => held other ∉ held place :: active) ⊆
      places.filter fun other => held other ∉ active := by
    intro other listed
    rw [Finset.mem_filter] at listed ⊢
    exact ⟨listed.1, fun older => listed.2 (List.mem_cons_of_mem _ older)⟩
  rw [Finset.ssubset_iff_of_subset fewer]
  refine ⟨place, Finset.mem_filter.mpr ⟨inside, idle⟩, ?_⟩
  rw [Finset.mem_filter]
  exact fun listed => listed.2 List.mem_cons_self

/-- A function that becomes active takes up room. -/
theorem room_cons_lt {size : Nat} {active : List FunctionId} {id : FunctionId}
    (inside : id.slot < size) (idle : id ∉ active) :
    room size (id :: active) < room size active :=
  card_idle_cons_lt Id.mk (Finset.mem_range.mpr inside) idle

/-- All functions of a program have slots below its number of slots. -/
theorem Program.findsBelow (program : Program) :
    FindsBelow program.function? program.functions.slotCount :=
  fun _ _ found => Arena.slot_lt_of_get? found

section Depth

variable {β : Type} {kept : β} {make : (FunctionId → β) → Block → β}
  {lookup changed : FunctionId → Option Function} {size : Nat}

/-- A call of an active function stays a call. -/
theorem expandCalls_of_mem (depth : Nat) {active : List FunctionId} {id : FunctionId}
    (listed : id ∈ active) : expandCalls kept make lookup depth active id = kept := by
  cases depth with
  | zero => rfl
  | succ depth => rw [expandCalls, if_pos (List.contains_iff_mem.mpr listed)]

/-- A call of a missing function stays a call. -/
theorem expandCalls_of_missing (depth : Nat) (active : List FunctionId) {id : FunctionId}
    (missing : lookup id = none) : expandCalls kept make lookup depth active id = kept := by
  cases depth with
  | zero => rfl
  | succ depth =>
    rw [expandCalls, missing]
    exact ite_self kept

/-- Depth beyond the room that is left makes no difference. -/
theorem expandCalls_succ (finds : FindsBelow lookup size) (depth : Nat) :
    ∀ active : List FunctionId, room size active ≤ depth →
      expandCalls kept make lookup (depth + 1) active =
        expandCalls kept make lookup depth active := by
  induction depth with
  | zero =>
    intro active full
    funext callee
    cases found : lookup callee with
    | none => rw [expandCalls_of_missing _ _ found, expandCalls_of_missing _ _ found]
    | some function =>
      have listed : callee ∈ active := by
        by_contra idle
        have less := room_cons_lt (finds callee function found) idle
        omega
      rw [expandCalls_of_mem _ listed, expandCalls_of_mem _ listed]
  | succ depth ih =>
    intro active enough
    funext callee
    by_cases listed : callee ∈ active
    · rw [expandCalls_of_mem _ listed, expandCalls_of_mem _ listed]
    · cases found : lookup callee with
      | none => rw [expandCalls_of_missing _ _ found, expandCalls_of_missing _ _ found]
      | some function =>
        have less := room_cons_lt (finds callee function found) listed
        rw [expandCalls, expandCalls, found, ih (callee :: active) (by omega)]

/-- Depth beyond the number of slots makes no difference. -/
theorem expandCalls_of_size_le (finds : FindsBelow lookup size) {depth : Nat}
    (enough : size ≤ depth) (active : List FunctionId) :
    expandCalls kept make lookup depth active = expandCalls kept make lookup size active := by
  induction enough with
  | refl => rfl
  | step more ih =>
    have fits := Nat.le_trans (room_le size active) more
    rw [expandCalls_succ finds _ active fits, ih]

/-- A call of a function that is found and not active is replaced by its body. -/
theorem expandCalls_of_found (finds : FindsBelow lookup size) {active : List FunctionId}
    {id : FunctionId} {function : Function} (found : lookup id = some function)
    (idle : id ∉ active) :
    expandCalls kept make lookup size active id =
      make (expandCalls kept make lookup size (id :: active)) function.body := by
  have blocked : ¬ active.contains id = true := fun listed =>
    idle (List.contains_iff_mem.mp listed)
  rw [← expandCalls_succ finds size active (room_le size active), expandCalls, if_neg blocked,
    found]

end Depth

/-! ## Layers -/

/-- Functions below the top rank call themselves and functions of lower rank only. -/
def Layered (lookup : FunctionId → Option Function) (rank : FunctionId → Nat) (top : Nat) : Prop :=
  ∀ id function, lookup id = some function → rank id < top → ∀ callee ∈ function.callees,
    callee = id ∨ rank callee < rank id

/-- A function that lies below all active ones, those of top rank apart. -/
def Below (rank : FunctionId → Nat) (top : Nat) (active : List FunctionId) (id : FunctionId) :
    Prop :=
  ∀ other ∈ active, rank id < rank other ∨ top ≤ rank other

section Layers

variable {β : Type} {kept : β} {make : (FunctionId → β) → Block → β}
  {lookup changed : FunctionId → Option Function} {size : Nat} {rank : FunctionId → Nat} {top : Nat}

/-- A function of a layer that lies below the active ones is not among them. -/
theorem Below.not_mem {active : List FunctionId} {id : FunctionId}
    (below : Below rank top active id) (inside : rank id < top) : id ∉ active := by
  intro listed
  rcases below id listed with lower | outside <;> omega

/-- What a function calls lies below it and below whatever it lies below. -/
theorem Below.callee {active : List FunctionId} {id callee : FunctionId} {function : Function}
    (below : Below rank top active id) (layered : Layered lookup rank top)
    (found : lookup id = some function) (called : callee ∈ function.callees) :
    callee = id ∨ Below rank top (id :: active) callee := by
  by_cases inside : rank id < top
  · rcases layered id function found inside callee called with self | lower
    · exact .inl self
    · refine .inr fun other listed => ?_
      rcases List.mem_cons.mp listed with rfl | older
      · exact .inl lower
      · rcases below other older with above | outside
        · exact .inl (Nat.lt_trans lower above)
        · exact .inr outside
  · refine .inr fun other listed => ?_
    rcases List.mem_cons.mp listed with rfl | older
    · exact .inr (Nat.le_of_not_lt inside)
    · rcases below other older with above | outside
      · exact .inr (by omega)
      · exact .inr outside

/-- What a call in a layer stands for does not depend on what is active above. -/
theorem expandCalls_active (depends : DependsOnCallees make) (finds : FindsBelow lookup size)
    (layered : Layered lookup rank top) (id : FunctionId) (inside : rank id < top)
    {active other : List FunctionId} (below : Below rank top active id)
    (belowOther : Below rank top other id) :
    expandCalls kept make lookup size active id = expandCalls kept make lookup size other id := by
  induction height : rank id using Nat.strong_induction_on generalizing id active other with
  | _ height ih =>
    cases found : lookup id with
    | none => rw [expandCalls_of_missing _ _ found, expandCalls_of_missing _ _ found]
    | some function =>
      rw [expandCalls_of_found finds found (below.not_mem inside),
        expandCalls_of_found finds found (belowOther.not_mem inside)]
      refine depends _ _ _ fun callee called => ?_
      rcases layered id function found inside callee called with rfl | lower
      · rw [expandCalls_of_mem _ List.mem_cons_self, expandCalls_of_mem _ List.mem_cons_self]
      · have fewer := (below.callee layered found called).resolve_left
          fun self => Nat.lt_irrefl _ (self ▸ lower)
        have fewerOther := (belowOther.callee layered found called).resolve_left
          fun self => Nat.lt_irrefl _ (self ▸ lower)
        exact ih (rank callee) (by omega) callee (by omega) fewer fewerOther rfl

/-- New bodies that stand for what the old ones stood for change no call. -/
theorem expandCalls_update (depends : DependsOnCallees make) (finds : FindsBelow lookup size)
    (findsNew : FindsBelow changed size) (layered : Layered changed rank top)
    (live : ∀ id, changed id = none ↔ lookup id = none)
    (same : ∀ active id function new, lookup id = some function → changed id = some new →
      Below rank top active id → make (expandCalls kept make lookup size (id :: active)) new.body =
        make (expandCalls kept make lookup size (id :: active)) function.body)
    (active : List FunctionId) (id : FunctionId) (below : id ∈ active ∨ Below rank top active id) :
    expandCalls kept make changed size active id = expandCalls kept make lookup size active id := by
  induction left : room size active using Nat.strong_induction_on generalizing active id with
  | _ left ih =>
    by_cases listed : id ∈ active
    · rw [expandCalls_of_mem _ listed, expandCalls_of_mem _ listed]
    · have lower : Below rank top active id := below.resolve_left listed
      cases found : lookup id with
      | none =>
        rw [expandCalls_of_missing _ _ found, expandCalls_of_missing _ _ ((live id).mpr found)]
      | some function =>
        cases foundNew : changed id with
        | none => simp [(live id).mp foundNew] at found
        | some new =>
          have less := room_cons_lt (finds id function found) listed
          rw [expandCalls_of_found finds found listed,
            expandCalls_of_found findsNew foundNew listed,
            ← same active id function new found foundNew lower]
          refine depends _ _ _ fun callee called => ?_
          refine ih (room size (id :: active)) (by omega) (id :: active) callee ?_ rfl
          rcases lower.callee layered foundNew called with rfl | deeper
          · exact .inl List.mem_cons_self
          · exact .inr deeper

/-- What a call stands for depends only on the functions that can be called from there,
those already active apart. -/
theorem expandCalls_congr (depends : DependsOnCallees make) {self : FunctionId}
    {reached : FunctionId → Prop} (closed : ∀ id function, reached id → lookup id = some function →
      ∀ callee ∈ function.callees, reached callee)
    (same : ∀ id, reached id → id ≠ self → changed id = lookup id) (depth : Nat) :
    ∀ active : List FunctionId, self ∈ active → ∀ id, reached id →
      expandCalls kept make changed depth active id =
        expandCalls kept make lookup depth active id := by
  induction depth with
  | zero => exact fun _ _ _ _ => rfl
  | succ depth ih =>
    intro active stopped id within
    by_cases listed : id ∈ active
    · rw [expandCalls_of_mem _ listed, expandCalls_of_mem _ listed]
    · have apart : id ≠ self := fun eq => listed (eq ▸ stopped)
      have unchanged := same id within apart
      cases found : lookup id with
      | none =>
        rw [expandCalls_of_missing _ _ found, expandCalls_of_missing _ _ (unchanged.trans found)]
      | some function =>
        rw [expandCalls, expandCalls, unchanged, found]
        have inner := depends _ _ function.body fun callee called =>
          ih (id :: active) (List.mem_cons_of_mem _ stopped) callee
            (closed id function within found callee called)
        simp only [inner]

end Layers

/-! ## Views -/

namespace View

/-- The effects of a function are those that replace a call of it from outside. -/
theorem effects?_eq {view : View} (finds : FindsBelow view.function? view.capacity)
    (id : FunctionId) :
    view.effects? id = (unfolding view.function? view.capacity [] id).map
      fun act => (act {}).finish := by
  unfold effects? unfolding
  cases found : view.function? id with
  | none => rw [expandCalls_of_missing _ _ found, Option.map_none, Option.map_none]
  | some function =>
    rw [expandCalls_of_found finds found List.not_mem_nil, Option.map_some, Option.map_some]
    rfl

/-- Views of the same functions give the same effects, work and traces, whatever their
capacities, if these are large enough. -/
theorem eq_of_function? {view other : View} (same : other.function? = view.function?)
    (finds : FindsBelow view.function? view.capacity) (enough : view.capacity ≤ other.capacity)
    (id : FunctionId) :
    other.effects? id = view.effects? id ∧ other.work? id = view.work? id ∧
      other.effectTrace id = view.effectTrace id := by
  have effects : other.effects? id = view.effects? id := by
    unfold effects? effectsOfBody unfolding
    rw [same, expandCalls_of_size_le finds enough]
  have work : other.work? id = view.work? id := by
    unfold work? workOfBody unfoldingWork
    rw [same, expandCalls_of_size_le finds enough]
  have fits : other.Fits id ↔ view.Fits id := by rw [Fits, Fits, work]
  refine ⟨effects, work, ?_⟩
  rw [effectTrace_eq, effectTrace_eq, effects, if_congr fits rfl rfl]

variable {view other : View} {id : FunctionId} (reached : FunctionId → Prop)

/-- The work for a body depends on the functions that can be called from it, its own one
apart. -/
theorem workOfBody_congr (capacity : other.capacity = view.capacity)
    (closed : ∀ called function, reached called → view.function? called = some function →
      ∀ callee ∈ function.callees, reached callee)
    (same : ∀ called, reached called → called ≠ id → other.function? called = view.function? called)
    {body : Block} (direct : ∀ callee ∈ Block.callees body, reached callee) :
    other.workOfBody id body = view.workOfBody id body := by
  unfold workOfBody unfoldingWork
  rw [capacity]
  refine Block.work_congr body fun callee args node => ?_
  exact expandCalls_congr work_dependsOnCallees closed same view.capacity [id] List.mem_cons_self
    callee (direct callee (Block.mem_callees.mpr ⟨args, node⟩))

/-- The work for a function depends on it and on the functions that can be called from
it. -/
theorem work?_congr (capacity : other.capacity = view.capacity)
    (closed : ∀ called function, reached called → view.function? called = some function →
      ∀ callee ∈ function.callees, reached callee)
    (same : ∀ called, reached called → called ≠ id → other.function? called = view.function? called)
    (self : other.function? id = view.function? id)
    (direct : ∀ function, view.function? id = some function →
      ∀ callee ∈ function.callees, reached callee) :
    other.work? id = view.work? id := by
  unfold work?
  rw [self]
  cases found : view.function? id with
  | none => rfl
  | some function =>
    have inner := workOfBody_congr reached capacity closed same (direct function found)
    rw [Option.map_some, Option.map_some, inner]

/-- The effects of a function depend on it and on the functions that can be called from
it. -/
theorem effects?_congr (capacity : other.capacity = view.capacity)
    (closed : ∀ called function, reached called → view.function? called = some function →
      ∀ callee ∈ function.callees, reached callee)
    (same : ∀ called, reached called → other.function? called = view.function? called)
    (self : reached id) : other.effects? id = view.effects? id := by
  unfold effects?
  rw [same id self]
  cases found : view.function? id with
  | none => rfl
  | some function =>
    have inner : other.effectsOfBody id function.body = view.effectsOfBody id function.body := by
      unfold effectsOfBody unfolding
      rw [capacity]
      congr 1
      refine congrFun (Block.effects_congr function.body fun callee args node => ?_) _
      exact expandCalls_congr effects_dependsOnCallees closed
        (fun called within _ => same called within)
        view.capacity [id] List.mem_cons_self callee
        (closed id function self found callee (Block.mem_callees.mpr ⟨args, node⟩))
    rw [Option.map_some, Option.map_some, inner]

/-- The trace of a function depends on it and on the functions that can be called from it,
and not on the capacity of the view if that is large enough. -/
theorem effectTrace_congr (finds : FindsBelow view.function? view.capacity)
    (enough : view.capacity ≤ other.capacity)
    (closed : ∀ called function, reached called → view.function? called = some function →
      ∀ callee ∈ function.callees, reached callee)
    (same : ∀ called, reached called → other.function? called = view.function? called)
    (self : reached id) : other.effectTrace id = view.effectTrace id := by
  -- the old functions, in a view as large as the new one
  let wide : View := { view with capacity := other.capacity }
  have effects : other.effects? id = wide.effects? id :=
    effects?_congr reached rfl closed same self
  have work : other.work? id = wide.work? id :=
    work?_congr reached rfl closed (fun called within _ => same called within) (same id self)
      fun function found => closed id function self found
  have fits : other.Fits id ↔ wide.Fits id := by rw [Fits, Fits, work]
  have found : wide.function? = view.function? := rfl
  have widened : wide.effectTrace id = view.effectTrace id :=
    (eq_of_function? found finds enough id).2.2
  rw [effectTrace_eq, effects, if_congr fits rfl rfl, ← effectTrace_eq, widened]

end View

end Timebound
