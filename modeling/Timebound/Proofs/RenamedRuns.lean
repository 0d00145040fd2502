import Timebound.Guided.Inlining
import Timebound.Proofs.Renaming

/-!
# Runs under other names

`Block.rename` gives all local names of a block new ones, binders and counters included.
With a naming that keeps names apart the renamed block runs as the original does, on
locals that agree along the naming (`Block.run_rename`). Moreover no run binds names for
its surroundings, and a run ends the activation only if there is a return in the block
(`Block.run_leaves`).
-/

namespace Timebound

/-! ## Free names -/

section Names

variable {relabel : String → String}

mutual

/-- The free names of a renamed statement are the new names of the old ones. -/
theorem Stmt.free_rename (injective : Function.Injective relabel) :
    ∀ s : Stmt, (s.rename relabel).free = s.free.map relabel
  | .bind .. | .assign .. | .setGlobal .. | .store .. | .emit .. | .eval _ => by
    simp [Stmt.rename, Stmt.free, Expr.reads_rename]
  | .branch cond thenBody elseBody _ => by
    simp only [Stmt.rename, Stmt.free, Expr.reads_rename, Block.free_rename injective thenBody,
      Block.free_rename injective elseBody, List.map_append]
  | .loop counter _ condition body => by
    have counts (name : String) : (counter.map relabel != some (relabel name)) =
        (counter != some name) := by
      cases counter <;> simp [bne, injective.eq_iff]
    simp only [Stmt.rename, Stmt.free, Args.reads_map_toList, Block.free_rename injective body,
      ← List.map_append, List.filter_map, Function.comp_def, counts]
  | .ret _ => by simp only [Stmt.rename, Stmt.free, Args.reads_map_toList]

/-- The free names of a renamed block are the new names of the old ones. -/
theorem Block.free_rename (injective : Function.Injective relabel) :
    ∀ block : List Stmt, Block.free (Block.rename relabel block) = (Block.free block).map relabel
  | [] => rfl
  | s :: rest => by
    have binds (name : String) : ((s.rename relabel).boundName? != some (relabel name)) =
        (s.boundName? != some name) := by
      cases s <;> simp [Stmt.rename, Stmt.boundName?, bne, injective.eq_iff]
    simp only [Block.rename, Block.free, Stmt.free_rename injective s,
      Block.free_rename injective rest, List.map_append, List.filter_map, Function.comp_def, binds]

end

/-- A renamed statement binds the new name. -/
theorem Stmt.boundName?_rename (relabel : String → String) (s : Stmt) :
    (s.rename relabel).boundName? = s.boundName?.map relabel := by
  cases s <;> rfl

/-- A renamed block binds the new names. -/
theorem Block.boundNames_rename (relabel : String → String) (block : Block) :
    Block.boundNames (Block.rename relabel block) = (Block.boundNames block).map relabel := by
  unfold Block.boundNames
  induction block with
  | nil => rfl
  | cons s rest ih =>
    rw [Block.rename, List.filterMap_cons, List.filterMap_cons, Stmt.boundName?_rename, ih]
    cases s.boundName? <;> rfl

/-- What is free in a concatenation is free in its first part, or in its second one and not
bound by the first. -/
theorem Block.mem_free_append {name : String} {first second : Block} :
    name ∈ Block.free (first ++ second) ↔ name ∈ Block.free first ∨
      (name ∈ Block.free second ∧ name ∉ Block.boundNames first) := by
  induction first with
  | nil => simp [Block.free, Block.boundNames]
  | cons s rest ih =>
    have bound : name ∈ Block.boundNames (s :: rest) ↔
        s.boundName? = some name ∨ name ∈ Block.boundNames rest := by
      simp [Block.boundNames]
    rw [List.cons_append, Block.mem_free_cons, Block.mem_free_cons, ih, bound]
    tauto

mutual

/-- A naming that changes nothing leaves a statement alone. -/
theorem Stmt.rename_id : ∀ s : Stmt, s.rename id = s
  | .bind .. | .assign .. | .setGlobal .. | .store .. | .emit .. | .eval _ => by
    simp only [Stmt.rename, Expr.rename_id, id_eq]
  | .branch _ thenBody elseBody _ => by
    rw [Stmt.rename, Expr.rename_id, Block.rename_id thenBody, Block.rename_id elseBody]
  | .loop counter _ condition body => by
    have same : Expr.rename id = id := funext Expr.rename_id
    rw [Stmt.rename, Block.rename_id body, same, Option.map_id, Option.map_id, id, id]
  | .ret value => by
    have same : Expr.rename id = id := funext Expr.rename_id
    rw [Stmt.rename, same, Option.map_id, id]

/-- A naming that changes nothing leaves a block alone. -/
theorem Block.rename_id : ∀ block : List Stmt, Block.rename id block = block
  | [] => rfl
  | s :: rest => by rw [Block.rename, Stmt.rename_id s, Block.rename_id rest]

end

end Names

/-! ## Renamed runs -/

section Runs

variable {known : Set String} {relabel : String → String} {locals renamed : Locals}

/-- Binding a name on both sides. -/
theorem Locals.Agree.bind (injective : Function.Injective relabel)
    (agree : locals.Agree known relabel renamed) (name : String) (held : Option Literal) :
    Locals.Agree (insert name known) relabel (Function.update locals name held)
      (Function.update renamed (relabel name) held) := by
  intro other inside
  by_cases same : other = name
  · rw [same, Function.update_self, Function.update_self]
  · rw [Function.update_of_ne same, Function.update_of_ne (injective.ne same)]
    exact agree other (inside.resolve_left same)

/-- Giving a name up on both sides. -/
theorem Flow.Agree.unbind (injective : Function.Injective relabel)
    (agree : locals.Agree known relabel renamed) {name : String} {first second : Flow}
    (inside : Flow.Agree (insert name known) relabel first second) :
    Flow.Agree known relabel (first.put name (locals name))
      (second.put (relabel name) (renamed (relabel name))) := by
  cases inside with
  | returned value => exact .returned value
  | onward agreeInside =>
    refine .onward fun other otherKnown => ?_
    by_cases same : other = name
    · rw [same, Function.update_self, Function.update_self]
      exact agree name (same ▸ otherKnown)
    · rw [Function.update_of_ne same, Function.update_of_ne (injective.ne same)]
      exact agreeInside other (.inr otherKnown)

mutual

/-- A renamed statement runs as the original does. -/
theorem Stmt.run_rename (setting : Setting) (injective : Function.Injective relabel) :
    ∀ (s : Stmt) {known : Set String} {locals renamed : Locals}, s.boundName? = none →
      (∀ name ∈ s.free, name ∈ known) → locals.Agree known relabel renamed →
        Run.Rel (Flow.Agree known relabel) (s.run setting locals)
          ((s.rename relabel).run setting renamed)
  | .bind .., _, _, _, binds, _, _ => by simp [Stmt.boundName?] at binds
  | .assign name value, _, _, _, _, used, agree => by
    simp only [Stmt.free, List.forall_mem_cons] at used
    have same := Expr.value_rename setting agree used.2
    have target := agree name used.1
    simp only [Stmt.rename, Stmt.run, same, ← target]
    exact .after _ fun held => .after _ fun _ =>
      .pure (.onward (agree.update injective.injOn used.1 _))
  | .setGlobal id value, _, _, _, _, used, agree => by
    have same := Expr.value_rename setting agree used
    simp only [Stmt.rename, Stmt.run, same]
    exact .after _ fun held => .after _ fun _ => .pure (.onward agree)
  | .store id index value, _, _, _, _, used, agree => by
    simp only [Stmt.free, List.forall_mem_append] at used
    have position := Expr.value_rename setting agree used.1
    have same := Expr.value_rename setting agree used.2
    simp only [Stmt.rename, Stmt.run, position, same]
    exact .after _ fun _ => .after _ fun held => .after _ fun _ => .pure (.onward agree)
  | .emit channel value, _, _, _, _, used, agree => by
    have same := Expr.value_rename setting agree used
    simp only [Stmt.rename, Stmt.run, same]
    exact .after _ fun sent => .after _ fun _ => .pure (.onward agree)
  | .eval value, _, _, _, _, used, agree => by
    have same := Expr.eval_rename setting value fun name read => agree name (used name read)
    simp only [Stmt.rename, Stmt.run, same]
    exact .after _ fun _ => .pure (.onward agree)
  | .branch cond thenBody elseBody _, _, _, _, _, used, agree => by
    simp only [Stmt.free, List.forall_mem_append] at used
    have decided := Expr.value_rename setting agree used.1
    have inThen := Block.run_rename setting injective thenBody used.2.1 agree
    have inElse := Block.run_rename setting injective elseBody used.2.2 agree
    simp only [Stmt.rename, Stmt.run, decided]
    refine .after _ fun decision => ?_
    split
    · exact inElse
    · exact inThen
  | .loop none bound condition body, _, _, _, _, used, agree => by
    have condUsed := fun name read => used name (Stmt.mem_free_loop.mpr ⟨.inl read, nofun⟩)
    have bodyUsed := fun name free => used name (Stmt.mem_free_loop.mpr ⟨.inr free, nofun⟩)
    simp only [Stmt.rename, Stmt.run, Option.map_none]
    refine bound.turns_agree setting (fun _ inner renamedInner agreeInner => ?_)
      (fun _ inner renamedInner agreeInner => ?_) agree
    · exact (Expr.holds_rename setting agreeInner condUsed).symm
    · simp only [Flow.leave_none, id_map]
      exact Block.run_rename setting injective body bodyUsed agreeInner
  | .loop (some counter) bound condition body, known, _, _, _, used, agree => by
    have knownInside : ∀ name, name ∈ Args.reads condition.toList ∨ name ∈ Block.free body →
        name ∈ insert counter known := by
      intro name inside
      by_cases same : name = counter
      · exact .inl same
      · exact .inr (used name (Stmt.mem_free_loop.mpr ⟨inside, fun counts =>
          same (Option.some.inj counts).symm⟩))
    simp only [Stmt.rename, Stmt.run, Option.map_some]
    refine bound.turns_agree setting (fun turn inner renamedInner agreeInner => ?_)
      (fun turn inner renamedInner agreeInner => ?_) agree
    · exact (Expr.holds_rename setting (agreeInner.bind injective counter _)
        fun name read => knownInside name (.inl read)).symm
    · have iteration := Block.run_rename setting injective body
        (fun name free => knownInside name (.inr free))
        (agreeInner.bind injective counter (some (.ofInt .u64 turn)))
      exact iteration.map fun _ _ inside => inside.unbind injective agreeInner
  | .ret none, _, _, _, _, _, _ => .pure (.returned none)
  | .ret (some value), known, _, _, _, used, agree => by
    have reads : ∀ name ∈ value.reads, name ∈ known := by simpa [Stmt.free] using used
    have same := Expr.eval_rename setting value fun name read => agree name (reads name read)
    simp only [Stmt.rename, Option.map_some, Stmt.run, same]
    exact .map (.refl (fun _ => rfl) _) fun left right same => same ▸ .returned left

/-- A renamed block runs as the original does, on locals that agree along the naming. -/
theorem Block.run_rename (setting : Setting) (injective : Function.Injective relabel) :
    ∀ (block : List Stmt) {known : Set String} {locals renamed : Locals},
      (∀ name ∈ Block.free block, name ∈ known) → locals.Agree known relabel renamed →
        Run.Rel (Flow.Agree known relabel) (Block.run setting block locals)
          (Block.run setting (Block.rename relabel block) renamed)
  | [], _, _, _, _, agree => .pure (.onward agree)
  | s :: rest, known, locals, renamed, used, agree => by
    have usedFirst := fun name free => used name (Block.mem_free_cons.mpr (.inl free))
    cases binds : s.boundName? with
    | none =>
      have usedLater := fun name free =>
        used name (Block.mem_free_cons.mpr (.inr ⟨free, by rw [binds]; exact nofun⟩))
      simp only [Block.rename, Block.run, Stmt.boundName?_rename, binds, Option.map_none,
        Flow.leave_none, id_map]
      have first := Stmt.run_rename setting injective s binds usedFirst agree
      exact first.bind fun _ _ agreeAfter => agreeAfter.next fun _ _ agreeInner =>
        Block.run_rename setting injective rest usedLater agreeInner
    | some name => cases s with
      | bind bound type value =>
        cases binds
        have knownInside : ∀ other ∈ Block.free rest, other ∈ insert name known := by
          intro other free
          by_cases same : other = name
          · exact .inl same
          · exact .inr (used other (Block.mem_free_cons.mpr (.inr ⟨free, fun binds =>
              same (Option.some.inj binds).symm⟩)))
        have same := Expr.value_rename setting agree usedFirst
        simp only [Block.rename, Stmt.rename, Block.run, Stmt.run, Stmt.boundName?, same,
          bind_assoc, pure_bind, Flow.next_onward, Flow.leave_some]
        refine .after _ fun held => ?_
        have later := Block.run_rename setting injective rest knownInside
          (agree.bind injective name (some held))
        exact later.map fun _ _ inside => inside.unbind injective agree
      | _ => simp [Stmt.boundName?] at binds

end

end Runs

/-! ## Bound names and returns -/

/-- The names that are bound. -/
def Locals.names (locals : Locals) : Set String := { name | locals name ≠ none }

/-- Setting a name binds no other one. -/
theorem Locals.mem_names_update {locals : Locals} {name other : String} (apart : other ≠ name)
    (held : Option Literal) :
    other ∈ Locals.names (Function.update locals name held) ↔ other ∈ locals.names := by
  change Function.update locals name held other ≠ none ↔ locals other ≠ none
  rw [Function.update_of_ne apart]

/-- A way to leave a block that binds no other names than these and ends the activation
only if it may. -/
def Flow.Leaves (names : Set String) (returns : Bool) : Flow → Prop
  | .onward after => after.names ⊆ names
  | .returned _ => returns = true

namespace Flow.Leaves

variable {names : Set String} {returns : Bool} {flow : Flow}

/-- More names and returns may be allowed. -/
theorem mono (left : flow.Leaves names returns) {wider : Set String} {other : Bool}
    (more : names ⊆ wider) (ends : returns = true → other = true) : flow.Leaves wider other := by
  cases flow with
  | onward after => exact left.trans more
  | returned value => exact ends left

/-- At the end of the scope of a name nothing is bound that was not bound outside. -/
theorem put (left : flow.Leaves names returns) {locals : Locals} {name : String}
    (outside : ∀ other ∈ names, other ≠ name → other ∈ locals.names) :
    (flow.put name (locals name)).Leaves locals.names returns := by
  cases flow with
  | returned value => exact left
  | onward after =>
    intro other bound
    by_cases same : other = name
    · subst same
      change Function.update after other (locals other) other ≠ none at bound
      rwa [Function.update_self] at bound
    · exact outside other (left ((Locals.mem_names_update same _).mp bound)) same

/-- At the end of an iteration nothing is bound that was not bound before. -/
theorem leave {locals : Locals} {counter : Option String} {turn : Nat}
    (left : flow.Leaves (locals.enter counter turn).names returns) :
    (flow.leave counter locals).Leaves locals.names returns := by
  cases counter with
  | none => exact left
  | some name => exact left.put fun other bound apart => (Locals.mem_names_update apart _).mp bound

end Flow.Leaves

/-- Loops leave nothing bound and return only if an iteration does. -/
theorem loopTurns_leaves {counter : Option String} {test : Locals → Run Bool}
    {body spent : Locals → Run Flow} {returns : Bool}
    (turns : ∀ locals, Run.Always (Flow.Leaves locals.names returns) (body locals))
    (ends : ∀ locals, Run.Always (Flow.Leaves locals.names returns) (spent locals)) (left : Nat) :
    ∀ (turn : Nat) (locals : Locals), Run.Always (Flow.Leaves locals.names returns)
      (loopTurns counter test body spent left turn locals) := by
  induction left with
  | zero => exact fun _ locals => ends locals
  | succ left ih =>
    intro turn locals
    simp only [loopTurns]
    refine .after fun goesOn => ?_
    cases goesOn with
    | false => exact .pure (subset_refl locals.names)
    | true =>
      refine (turns (locals.enter counter turn)).bind fun flow leaves => ?_
      have outside := leaves.leave
      generalize flow.leave counter locals = ended at outside
      cases ended with
      | onward after => exact (ih (turn + 1) after).mono fun _ later => later.mono outside id
      | returned value => exact .pure outside

mutual

/-- A statement binds its own name only, and returns only if there is a return in it. -/
theorem Stmt.run_leaves (setting : Setting) : ∀ (s : Stmt) (locals : Locals),
    Run.Always (Flow.Leaves (locals.names ∪ { name | s.boundName? = some name }) s.returns)
      (s.run setting locals)
  | .bind name _ value, locals => by
    simp only [Stmt.run]
    refine .after fun held => .pure fun other bound => ?_
    by_cases same : other = name
    · exact .inr (congrArg some same.symm)
    · exact .inl ((Locals.mem_names_update same _).mp bound)
  | .assign name value, locals => by
    simp only [Stmt.run]
    refine .after fun held => (Run.Always.need _ _).bind fun old found => .pure ?_
    intro other bound
    by_cases same : other = name
    · have held : locals name ≠ none := by rw [found]; exact nofun
      exact .inl (same ▸ held)
    · exact .inl ((Locals.mem_names_update same _).mp bound)
  | .setGlobal .., locals | .emit .., locals => by
    simp only [Stmt.run]
    exact .after fun _ => .after fun _ => .pure Set.subset_union_left
  | .store .., locals => by
    simp only [Stmt.run]
    exact .after fun _ => .after fun _ => .after fun _ => .pure Set.subset_union_left
  | .eval _, locals => by
    simp only [Stmt.run]
    exact .after fun _ => .pure Set.subset_union_left
  | .branch _ thenBody elseBody _, locals => by
    have inThen := Block.run_leaves setting thenBody locals
    have inElse := Block.run_leaves setting elseBody locals
    simp only [Stmt.run, Stmt.returns]
    refine .after fun decision => ?_
    split
    · exact inElse.mono fun _ left => left.mono Set.subset_union_left (by simp +contextual)
    · exact inThen.mono fun _ left => left.mono Set.subset_union_left (by simp +contextual)
  | .loop _ bound _ body, locals => by
    have turns := Block.run_leaves setting body
    simp only [Stmt.run, TripBound.turns, Stmt.returns]
    cases bound.limit? with
    | none =>
      have ends (locals : Locals) : Run.Always (Flow.Leaves locals.names (Block.returns body))
          (throw .unfinished) := fun _ _ ended => by cases ended
      exact (loopTurns_leaves turns ends _ _ locals).mono fun _ left =>
        left.mono Set.subset_union_left id
    | some trips =>
      exact (loopTurns_leaves turns (fun _ => .pure (subset_refl _)) _ _ locals).mono
        fun _ left => left.mono Set.subset_union_left id
  | .ret none, _ => .pure rfl
  | .ret (some _), _ => by
    simp only [Stmt.run]
    refine .map (fun _ => ?_) _
    rfl

/-- A block leaves nothing bound that was not bound before, and returns only if there is a
return in it. -/
theorem Block.run_leaves (setting : Setting) : ∀ (block : List Stmt) (locals : Locals),
    Run.Always (Flow.Leaves locals.names (Block.returns block)) (Block.run setting block locals)
  | [], locals => .pure (subset_refl locals.names)
  | s :: rest, locals => by
    simp only [Block.run, Block.returns]
    refine (Stmt.run_leaves setting s locals).bind fun flow left => ?_
    cases flow with
    | returned value =>
      have ends : s.returns = true := left
      exact .pure (by simp [Flow.Leaves, ends])
    | onward inner =>
      rw [Flow.next_onward, map_eq_pure_bind]
      refine (Block.run_leaves setting rest inner).bind fun later leaves => .pure ?_
      have wider : later.Leaves (locals.names ∪ { name | s.boundName? = some name })
          (s.returns || Block.returns rest) := leaves.mono left (by simp +contextual)
      cases binds : s.boundName? with
      | none =>
        rw [binds] at wider
        simpa using wider
      | some name =>
        rw [binds] at wider
        refine wider.put fun other bound apart => bound.resolve_right fun same => ?_
        exact apart (Option.some.inj same).symm

end

end Timebound
