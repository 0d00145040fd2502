import Mathlib.Data.Set.Function
import Timebound.Guided.Unrolling
import Timebound.Proofs.LocalNames

/-!
# Renaming locals

`Block.rebind` gives the locals of a block new names and follows the names that the
block hides. Two runs are related when they stop for the same reason in the same
world or go on with related results (`Run.Rel`). A renamed block runs as the
original does, on locals that agree along the naming, provided no binder takes a
name that another name in its scope already has (`Block.avoidsCapture`). Then a
block whose own bindings are marked has the meaning it had (`Block.run_rebind_id`).
-/

namespace Timebound

/-! ## Related runs -/

namespace Run

variable {α β γ δ : Type}

/-- Ends of two runs in one world, both early for one reason or with related results. -/
inductive Matches (related : α → β → Prop) :
    Except Halt α × World → Except Halt β × World → Prop where
  | ok {first : α} {second : β} (holds : related first second) (world : World) :
      Matches related (.ok first, world) (.ok second, world)
  | error (halt : Halt) (world : World) : Matches related (.error halt, world) (.error halt, world)

/-- Runs that end alike from every world. -/
def Rel (related : α → β → Prop) (first : Run α) (second : Run β) : Prop :=
  ∀ world, Matches related (first.run.run world) (second.run.run world)

theorem Rel.pure {related : α → β → Prop} {first : α} {second : β} (holds : related first second) :
    Rel related (pure first : Run α) (pure second : Run β) :=
  fun world => .ok holds world

theorem Rel.refl {related : α → α → Prop} (holds : ∀ result, related result result) (run : Run α) :
    Rel related run run := by
  intro world
  generalize run.run.run world = ended
  obtain ⟨result, left⟩ := ended
  cases result with
  | ok value => exact .ok (holds value) left
  | error halt => exact .error halt left

/-- Related runs that go on in related ways stay related. -/
theorem Rel.bind {related : α → β → Prop} {after : γ → δ → Prop} {first : Run α} {second : Run β}
    {next : α → Run γ} {other : β → Run δ} (runs : Rel related first second)
    (goOn : ∀ left right, related left right → Rel after (next left) (other right)) :
    Rel after (first >>= next) (second >>= other) := by
  intro world
  have ended := runs world
  simp only [ExceptT.run_bind, StateT.run_bind]
  generalize first.run.run world = left at ended ⊢
  generalize second.run.run world = right at ended ⊢
  cases ended with
  | ok holds middle => exact goOn _ _ holds middle
  | error halt middle => exact .error halt middle

/-- Runs with equal results are equal. -/
theorem Rel.eq {first second : Run α} (runs : Rel Eq first second) : first = second := by
  refine ExceptT.ext (StateT.ext fun world => ?_)
  have ended := runs world
  generalize first.run.run world = left at ended ⊢
  generalize second.run.run world = right at ended ⊢
  cases ended with
  | ok holds middle => rw [holds]
  | error halt middle => rfl

/-- Ends that match keep matching under a relation that holds of their results. -/
theorem Matches.mono {related weaker : α → β → Prop} {first : Except Halt α × World}
    {second : Except Halt β × World} (ended : Matches related first second)
    (weaken : ∀ left right, first.1 = .ok left → second.1 = .ok right → related left right →
      weaker left right) : Matches weaker first second := by
  cases ended with
  | ok holds world => exact .ok (weaken _ _ rfl rfl holds) world
  | error halt world => exact .error halt world

/-- A relation may be weakened. -/
theorem Rel.mono {related weaker : α → β → Prop} {first : Run α} {second : Run β}
    (runs : Rel related first second)
    (weaken : ∀ left right, related left right → weaker left right) : Rel weaker first second :=
  fun world => (runs world).mono fun left right _ _ holds => weaken left right holds

/-- Whatever result a run has satisfies a condition. -/
def Always (holds : α → Prop) (run : Run α) : Prop :=
  ∀ world result, (run.run.run world).1 = .ok result → holds result

/-- What always holds of related runs may be added to the relation. -/
theorem Rel.and_always {related : α → β → Prop} {first : Run α} {second : Run β}
    (runs : Rel related first second) {holds : α → Prop} (always : Always holds first)
    {otherHolds : β → Prop} (otherAlways : Always otherHolds second) :
    Rel (fun left right => related left right ∧ holds left ∧ otherHolds right) first second :=
  fun world => (runs world).mono fun left right firstEnds secondEnds both =>
    ⟨both, always world left firstEnds, otherAlways world right secondEnds⟩

/-- A condition on images always holds after mapping. -/
theorem Always.map {holds : β → Prop} {f : α → β} (each : ∀ value, holds (f value)) (run : Run α) :
    Always holds (f <$> run) := by
  intro world result ended
  simp only [ExceptT.run_map, StateT.run_map] at ended
  generalize run.run.run world = middle at ended
  obtain ⟨outcome, reached⟩ := middle
  cases outcome with
  | ok value =>
    cases ended
    exact each value
  | error halt => cases ended

/-- Related runs stay related when their results are mapped alike. -/
theorem Rel.map {related : α → β → Prop} {after : γ → δ → Prop} {first : Run α} {second : Run β}
    {f : α → γ} {g : β → δ} (runs : Rel related first second)
    (each : ∀ left right, related left right → after (f left) (g right)) :
    Rel after (f <$> first) (g <$> second) := by
  rw [map_eq_pure_bind, map_eq_pure_bind]
  exact runs.bind fun left right holds => .pure (each left right holds)

/-- Related runs stay related when the results of one are mapped suitably. -/
theorem Rel.map_right {related : α → β → Prop} {after : α → γ → Prop} {first : Run α}
    {second : Run β} {g : β → γ} (runs : Rel related first second)
    (each : ∀ left right, related left right → after left (g right)) :
    Rel after first (g <$> second) := by
  have mapped : Rel after (id <$> first) (g <$> second) := runs.map each
  rwa [id_map] at mapped

/-- What holds of a value always holds of giving it. -/
theorem Always.pure {holds : α → Prop} {value : α} (here : holds value) :
    Always holds (pure value : Run α) := by
  intro world result ended
  cases ended
  exact here

/-- What always holds of a run can be used for what follows. -/
theorem Always.bind {before : α → Prop} {holds : β → Prop} {first : Run α} {next : α → Run β}
    (runs : Always before first) (goOn : ∀ value, before value → Always holds (next value)) :
    Always holds (first >>= next) := by
  intro world result ended
  have middle := runs world
  simp only [ExceptT.run_bind, StateT.run_bind] at ended
  generalize first.run.run world = reached at middle ended
  obtain ⟨outcome, left⟩ := reached
  cases outcome with
  | ok value => exact goOn value (middle value rfl) left result ended
  | error halt => cases ended

/-- What always holds of what follows, whatever comes first. -/
theorem Always.after {holds : β → Prop} {first : Run α} {next : α → Run β}
    (goOn : ∀ value, Always holds (next value)) : Always holds (first >>= next) := by
  have anything : Always (fun _ => True) first := fun _ _ _ => trivial
  exact anything.bind fun value _ => goOn value

/-- A weaker condition always holds as well. -/
theorem Always.mono {holds weaker : α → Prop} {run : Run α} (runs : Always holds run)
    (weaken : ∀ value, holds value → weaker value) : Always weaker run :=
  fun world result ended => weaken result (runs world result ended)

/-- What always holds can be joined. -/
theorem Always.and {holds other : α → Prop} {run : Run α} (one : Always holds run)
    (second : Always other run) : Always (fun value => holds value ∧ other value) run :=
  fun world result ended => ⟨one world result ended, second world result ended⟩

/-- A value that must be there is there. -/
theorem Always.need (halt : Halt) (held : Option α) :
    Always (fun value => held = some value) (Run.need halt held) := by
  intro world result ended
  cases held with
  | none => cases ended
  | some value =>
    cases ended
    rfl

/-- Runs go on alike if they do with all results that the first part can have. -/
theorem bind_congr_of_always {holds : α → Prop} {first : Run α} {next other : α → Run β}
    (always : Always holds first) (same : ∀ value, holds value → next value = other value) :
    first >>= next = first >>= other := by
  have runs := (Rel.refl (fun _ => rfl) first).and_always always always
  refine Rel.eq (runs.bind fun left right ended => ?_)
  obtain ⟨rfl, holds, _⟩ := ended
  rw [same left holds]
  exact .refl (fun _ => rfl) _

end Run

/-! ## Locals along a naming -/

/-- Known names stand for what their new names stand for. -/
def Locals.Agree (known : Set String) (relabel : String → String) (locals renamed : Locals) :
    Prop :=
  ∀ name ∈ known, locals name = renamed (relabel name)

/-- Ways to leave a block that agree along a naming. -/
inductive Flow.Agree (known : Set String) (relabel : String → String) : Flow → Flow → Prop where
  | onward {locals renamed : Locals} (agree : locals.Agree known relabel renamed) :
      Agree known relabel (.onward locals) (.onward renamed)
  | returned (value : Option Literal) : Agree known relabel (.returned value) (.returned value)

/-- A name stands for what it stood for in `locals`, unless the activation has ended. -/
def Flow.Keeps (locals : Locals) (name : String) : Flow → Prop
  | .onward after => after name = locals name
  | .returned _ => True

/-- Running a block keeps every name that is not free in it. -/
theorem Block.run_keeps (setting : Setting) (block : Block) (locals : Locals) :
    Run.Always (fun flow => ∀ name, name ∉ Block.free block → flow.Keeps locals name)
      (Block.run setting block locals) := by
  intro world flow ended name unused
  have same := Block.run_put setting (locals name) unused locals
  rw [Function.update_eq_self] at same
  rw [same] at ended
  refine Run.Always.map (fun other => ?_) _ world flow ended
  cases other with
  | onward after => exact Function.update_self name (locals name) after
  | returned value => trivial

/-- A known name can be set on both sides when no other known name gets its new name. -/
theorem Locals.Agree.update {known : Set String} {relabel : String → String}
    {locals renamed : Locals} (agree : locals.Agree known relabel renamed)
    (injective : Set.InjOn relabel known) {name : String} (inside : name ∈ known)
    (held : Option Literal) :
    Locals.Agree known relabel (Function.update locals name held)
      (Function.update renamed (relabel name) held) := by
  intro other otherInside
  by_cases same : other = name
  · rw [same, Function.update_self, Function.update_self]
  · have apart : relabel other ≠ relabel name := fun equal =>
      same (injective otherInside inside equal)
    rw [Function.update_of_ne same, Function.update_of_ne apart]
    exact agree other otherInside

/-! ## Scopes -/

/-- What is known inside the scope of a name that gets a new one: the name itself,
and the outer names whose own new name is not hidden by it. -/
def scopeNames (known : Set String) (relabel : String → String) (name fresh : String) :
    Set String :=
  { other | other = name ∨ (other ∈ known ∧ relabel other ≠ fresh) }

section Scope

variable {known : Set String} {relabel : String → String} {name fresh : String}
  {locals renamed : Locals}

/-- Distinct names that are known in a scope have distinct new names. -/
theorem setName_injOn (injective : Set.InjOn relabel known) :
    Set.InjOn (setName relabel name fresh) (scopeNames known relabel name fresh) := by
  intro left leftInside right rightInside equal
  unfold setName at equal
  split at equal <;> split at equal
  · simp_all
  · rename_i isName notName
    rcases rightInside with same | ⟨_, apart⟩
    · exact absurd same notName
    · exact absurd equal.symm apart
  · rename_i notName isName
    rcases leftInside with same | ⟨_, apart⟩
    · exact absurd same notName
    · exact absurd equal apart
  · rename_i leftNot rightNot
    rcases leftInside with same | ⟨leftKnown, _⟩
    · exact absurd same leftNot
    · rcases rightInside with same | ⟨rightKnown, _⟩
      · exact absurd same rightNot
      · exact injective leftKnown rightKnown equal

/-- Entering a scope on both sides. -/
theorem Locals.Agree.enter (agree : locals.Agree known relabel renamed) (held : Option Literal) :
    Locals.Agree (scopeNames known relabel name fresh) (setName relabel name fresh)
      (Function.update locals name held) (Function.update renamed fresh held) := by
  intro other inside
  unfold setName
  by_cases same : other = name
  · rw [if_pos same, same, Function.update_self, Function.update_self]
  · rcases inside with isName | ⟨otherKnown, apart⟩
    · exact absurd isName same
    · rw [if_neg same, Function.update_of_ne same, Function.update_of_ne apart]
      exact agree other otherKnown

/-- Leaving a scope on both sides. What is hidden inside it must be kept: on the
first side the names whose new name is taken, on the second the new name that the
name has outside. -/
theorem Flow.Agree.leave (agree : locals.Agree known relabel renamed) {first second : Flow}
    (inside : Flow.Agree (scopeNames known relabel name fresh) (setName relabel name fresh)
      first second)
    (keepsFirst : ∀ other ∈ known, other ≠ name → relabel other = fresh →
      first.Keeps locals other)
    (keepsSecond : name ∈ known → relabel name ≠ fresh → second.Keeps renamed (relabel name)) :
    Flow.Agree known relabel (first.put name (locals name)) (second.put fresh (renamed fresh)) := by
  cases inside with
  | returned value => exact .returned value
  | onward agreeInside =>
    refine .onward fun other otherKnown => ?_
    by_cases same : other = name
    · subst same
      rw [Function.update_self]
      by_cases taken : relabel other = fresh
      · rw [taken, Function.update_self, ← taken]
        exact agree other otherKnown
      · rw [Function.update_of_ne taken, keepsSecond otherKnown taken]
        exact agree other otherKnown
    · rw [Function.update_of_ne same]
      by_cases taken : relabel other = fresh
      · rw [taken, Function.update_self, keepsFirst other otherKnown same taken, ← taken]
        exact agree other otherKnown
      · rw [Function.update_of_ne taken]
        have held := agreeInside other (.inr ⟨otherKnown, taken⟩)
        rwa [setName, if_neg same] at held

end Scope

/-! ## Renamed blocks -/

/-- The name that a binding gets: marked, if there is a mark. -/
def markedName (mark : Option String) (name : String) : String :=
  match mark with
  | some mark => mark ++ name
  | none => name

/-- Leaving a name alone is giving it itself as the new name. -/
theorem keepName_eq (relabel : String → String) (name : String) :
    keepName relabel name = setName relabel name name := by
  funext other
  unfold keepName setName
  split
  · assumption
  · rfl

/-- A binding gets its marked name, which the statements after it use. -/
theorem Stmt.rebind_bind (relabel : String → String) (mark : Option String) (name : String)
    (type : ScalarType) (value : Expr) :
    (Stmt.bind name type value).rebind relabel mark =
      (.bind (markedName mark name) type (value.rename relabel),
        setName relabel name (markedName mark name)) := by
  cases mark with
  | none => rw [Stmt.rebind, keepName_eq, markedName]
  | some mark => rw [Stmt.rebind, markedName]

/-- Only bindings change the naming for the statements after them. -/
theorem Stmt.rebind_snd {s : Stmt} (binds : s.boundName? = none) (relabel : String → String)
    (mark : Option String) : (s.rebind relabel mark).2 = relabel := by
  cases s with
  | bind name type value => simp [Stmt.boundName?] at binds
  | loop counter bound condition body => cases counter <;> rw [Stmt.rebind]
  | _ => rw [Stmt.rebind]

/-- Renaming a statement marks the name it binds. -/
theorem Stmt.boundName?_rebind (s : Stmt) (relabel : String → String) (mark : Option String) :
    (s.rebind relabel mark).1.boundName? = s.boundName?.map (markedName mark) := by
  cases s with
  | bind name type value => rw [Stmt.rebind_bind]; rfl
  | loop counter bound condition body => cases counter <;> rw [Stmt.rebind] <;> rfl
  | _ => rw [Stmt.rebind]; rfl

/-- Renaming a block marks the names it binds. -/
theorem Block.boundNames_rebind (block : Block) (relabel : String → String)
    (mark : Option String) :
    Block.boundNames (Block.rebind relabel mark block) =
      (Block.boundNames block).map (markedName mark) := by
  induction block generalizing relabel with
  | nil => rw [Block.rebind]; rfl
  | cons s rest ih =>
    have others := ih (s.rebind relabel mark).2
    have first := s.boundName?_rebind relabel mark
    unfold Block.boundNames at others ⊢
    rw [Block.rebind, List.filterMap_cons, List.filterMap_cons, first]
    cases s.boundName? with
    | none => exact others
    | some name => simp only [Option.map_some, List.map_cons, others]

/-- A renamed node reads the new name of what it read. -/
theorem Expr.readName?_rename (relabel : String → String) (e : Expr) :
    (e.rename relabel).readName? = e.readName?.map relabel := by
  cases e <;> rfl

/-- The local names of a renamed expression are the new names of the old ones. -/
theorem Expr.reads_rename (relabel : String → String) (e : Expr) :
    (e.rename relabel).reads = e.reads.map relabel := by
  unfold Expr.reads
  rw [Expr.nodes_rename, List.filterMap_map, List.map_filterMap]
  congr 1
  exact funext (Expr.readName?_rename relabel)

/-- The local names of a renamed optional expression. -/
theorem Args.reads_map_toList (relabel : String → String) (e : Option Expr) :
    Args.reads (e.map (Expr.rename relabel)).toList = (Args.reads e.toList).map relabel := by
  cases e with
  | none => rfl
  | some e =>
    simp only [Option.map_some, Option.toList_some, Args.reads_cons, Args.reads_nil,
      List.append_nil, Expr.reads_rename]

mutual

/-- What is free in a renamed statement is the new name of a free one. -/
theorem Stmt.free_rebind (relabel : String → String) (mark : Option String) :
    ∀ (s : Stmt) {name : String}, name ∈ (s.rebind relabel mark).1.free →
      ∃ old ∈ s.free, relabel old = name
  | .bind bound type value, name, free => by
    rw [Stmt.rebind_bind] at free
    simpa only [Stmt.free, Expr.reads_rename, List.mem_map] using free
  | .assign _ value, name, free => by
    simpa only [Stmt.rebind, Stmt.free, Expr.reads_rename, ← List.map_cons, List.mem_map] using free
  | .setGlobal _ value, name, free | .emit _ value, name, free | .eval value, name, free => by
    simpa only [Stmt.rebind, Stmt.free, Expr.reads_rename, List.mem_map] using free
  | .store _ index value, name, free => by
    simpa only [Stmt.rebind, Stmt.free, Expr.reads_rename, ← List.map_append, List.mem_map]
      using free
  | .branch cond thenBody elseBody _, name, free => by
    simp only [Stmt.rebind, Stmt.free, List.mem_append] at free ⊢
    rcases free with decided | inThen | inElse
    · rw [Expr.reads_rename, List.mem_map] at decided
      obtain ⟨old, read, equal⟩ := decided
      exact ⟨old, .inl read, equal⟩
    · obtain ⟨old, used, equal⟩ := Block.free_rebind relabel none thenBody inThen
      exact ⟨old, .inr (.inl used), equal⟩
    · obtain ⟨old, used, equal⟩ := Block.free_rebind relabel none elseBody inElse
      exact ⟨old, .inr (.inr used), equal⟩
  | .loop none bound condition body, name, free => by
    rw [Stmt.rebind, Stmt.mem_free_loop, Args.reads_map_toList, List.mem_map] at free
    simp only [Stmt.mem_free_loop]
    rcases free.1 with ⟨old, read, equal⟩ | inBody
    · exact ⟨old, ⟨.inl read, nofun⟩, equal⟩
    · obtain ⟨old, used, equal⟩ := Block.free_rebind relabel none body inBody
      exact ⟨old, ⟨.inr used, nofun⟩, equal⟩
  | .loop (some counter) bound condition body, name, free => by
    rw [Stmt.rebind, Stmt.mem_free_loop, Args.reads_map_toList, List.mem_map] at free
    simp only [Stmt.mem_free_loop]
    have found : ∃ old, (old ∈ Args.reads condition.toList ∨ old ∈ Block.free body) ∧
        keepName relabel counter old = name := by
      rcases free.1 with ⟨old, read, equal⟩ | inBody
      · exact ⟨old, .inl read, equal⟩
      · obtain ⟨old, used, equal⟩ := Block.free_rebind (keepName relabel counter) none body inBody
        exact ⟨old, .inr used, equal⟩
    obtain ⟨old, used, equal⟩ := found
    have apart : old ≠ counter := by
      intro same
      rw [keepName, if_pos same] at equal
      exact free.2 (congrArg some (same.symm.trans equal))
    rw [keepName, if_neg apart] at equal
    exact ⟨old, ⟨used, fun same => apart (Option.some.inj same).symm⟩, equal⟩
  | .ret value, name, free => by
    simpa only [Stmt.rebind, Stmt.free, Args.reads_map_toList, List.mem_map] using free

/-- What is free in a renamed block is the new name of a free one. -/
theorem Block.free_rebind (relabel : String → String) (mark : Option String) :
    ∀ (block : Block) {name : String}, name ∈ Block.free (Block.rebind relabel mark block) →
      ∃ old ∈ Block.free block, relabel old = name
  | [], name, free => by simp [Block.rebind, Block.free] at free
  | s :: rest, name, free => by
    rw [Block.rebind, Block.mem_free_cons] at free
    simp only [Block.mem_free_cons]
    rcases free with here | ⟨later, kept⟩
    · obtain ⟨old, used, equal⟩ := Stmt.free_rebind relabel mark s here
      exact ⟨old, .inl used, equal⟩
    · obtain ⟨old, used, equal⟩ := Block.free_rebind (s.rebind relabel mark).2 mark rest later
      rw [Stmt.boundName?_rebind] at kept
      cases binds : s.boundName? with
      | none =>
        rw [Stmt.rebind_snd binds] at equal
        exact ⟨old, .inr ⟨used, nofun⟩, equal⟩
      | some bound =>
        have naming : (s.rebind relabel mark).2 =
            setName relabel bound (markedName mark bound) := by
          cases s with
          | bind held type value =>
            cases binds
            rw [Stmt.rebind_bind]
          | _ => simp [Stmt.boundName?] at binds
        rw [naming, setName] at equal
        rw [binds, Option.map_some] at kept
        split at equal
        · exact absurd (congrArg some equal) kept
        · rename_i apart
          exact ⟨old, .inr ⟨used, fun same => apart (Option.some.inj same).symm⟩, equal⟩

end

/-! ## Capture -/

/-- Whether giving a name a new one hides none of the other names in use. -/
def hidesNone (relabel : String → String) (name fresh : String) (used : List String) : Bool :=
  used.all fun other => other == name || relabel other != fresh

/-- Nothing is hidden when the names in use are not renamed to the new name. -/
theorem hidesNone_iff {relabel : String → String} {name fresh : String} {used : List String} :
    hidesNone relabel name fresh used = true ↔
      ∀ other ∈ used, other ≠ name → relabel other ≠ fresh := by
  unfold hidesNone
  rw [List.all_eq_true]
  refine forall₂_congr fun other _ => ?_
  rw [Bool.or_eq_true, beq_iff_eq, bne_iff_ne]
  exact ⟨fun either apart => either.resolve_left apart, fun h => (em _).imp_right h⟩

mutual

/-- Whether no binder inside a statement hides a name that is renamed to its own. -/
def Stmt.avoidsCapture (relabel : String → String) : Stmt → Bool
  | .branch _ thenBody elseBody _ =>
    Block.avoidsCapture relabel none thenBody && Block.avoidsCapture relabel none elseBody
  | .loop (some counter) _ condition body =>
    hidesNone relabel counter counter (Args.reads condition.toList ++ Block.free body) &&
      Block.avoidsCapture (keepName relabel counter) none body
  | .loop none _ _ body => Block.avoidsCapture relabel none body
  | .bind .. | .assign .. | .setGlobal .. | .store .. | .emit .. | .eval _ | .ret _ => true

/-- Whether no binder of a block or inside it hides a name that is renamed to the
name that the binder gets. -/
def Block.avoidsCapture (relabel : String → String) (mark : Option String) : List Stmt → Bool
  | [] => true
  | s :: rest =>
    s.avoidsCapture relabel &&
      (s.boundName?.all fun name =>
        hidesNone relabel name (markedName mark name) (Block.free rest)) &&
      Block.avoidsCapture (s.rebind relabel mark).2 mark rest

end

/-! ## Runs of renamed blocks -/

section Runs

variable {known : Set String} {relabel : String → String} {locals renamed : Locals}

/-- Going on from ways to leave that agree. -/
theorem Flow.Agree.next {first second : Flow} (agree : Flow.Agree known relabel first second)
    {following other : Locals → Run Flow}
    (goOn : ∀ locals renamed : Locals, locals.Agree known relabel renamed →
      Run.Rel (Flow.Agree known relabel) (following locals) (other renamed)) :
    Run.Rel (Flow.Agree known relabel) (first.next following) (second.next other) := by
  cases agree with
  | onward agree => exact goOn _ _ agree
  | returned value => exact .pure (.returned value)

/-- Runs of a block and of its renamed copy, each in the scope of a name, agree
outside that scope when they do inside. -/
theorem Block.run_scope (setting : Setting) {name fresh : String} {block copy : Block}
    {held : Option Literal} (injective : Set.InjOn relabel known)
    (agree : locals.Agree known relabel renamed)
    (used : ∀ other ∈ Block.free block, other ≠ name → other ∈ known ∧ relabel other ≠ fresh)
    (usedAfter : ∀ other ∈ Block.free copy, ∃ old ∈ Block.free block,
      setName relabel name fresh old = other)
    (inside : Run.Rel
      (Flow.Agree (scopeNames known relabel name fresh) (setName relabel name fresh))
      (Block.run setting block (Function.update locals name held))
      (Block.run setting copy (Function.update renamed fresh held))) :
    Run.Rel (Flow.Agree known relabel)
      (Flow.put name (locals name) <$> Block.run setting block (Function.update locals name held))
      (Flow.put fresh (renamed fresh) <$>
        Block.run setting copy (Function.update renamed fresh held)) := by
  have kept := inside.and_always (Block.run_keeps setting block _)
    (Block.run_keeps setting copy _)
  refine kept.map fun first second ended => ?_
  obtain ⟨agreeInside, keepsFirst, keepsSecond⟩ := ended
  refine agreeInside.leave agree (fun other otherKnown apart taken => ?_) fun nameKnown apart => ?_
  · have unused : other ∉ Block.free block := fun free => (used other free apart).2 taken
    have keeps := keepsFirst other unused
    cases first with
    | returned value => trivial
    | onward after => exact Eq.trans keeps (Function.update_of_ne apart held locals)
  · have unused : relabel name ∉ Block.free copy := by
      intro free
      obtain ⟨old, oldFree, equal⟩ := usedAfter _ free
      unfold setName at equal
      split at equal
      · exact apart equal.symm
      · rename_i notName
        exact notName (injective (used old oldFree notName).1 nameKnown equal)
    have keeps := keepsSecond (relabel name) unused
    cases second with
    | returned value => trivial
    | onward after => exact Eq.trans keeps (Function.update_of_ne apart held renamed)

/-- Loops agree when their iterations do. -/
theorem loopTurns_agree {counter otherCounter : Option String} {test otherTest : Locals → Run Bool}
    {body otherBody spent otherSpent : Locals → Run Flow}
    (sameTest : ∀ (turn : Nat) (locals renamed : Locals), locals.Agree known relabel renamed →
      test (locals.enter counter turn) = otherTest (renamed.enter otherCounter turn))
    (once : ∀ (turn : Nat) (locals renamed : Locals), locals.Agree known relabel renamed →
      Run.Rel (Flow.Agree known relabel)
        (Flow.leave counter locals <$> body (locals.enter counter turn))
        (Flow.leave otherCounter renamed <$> otherBody (renamed.enter otherCounter turn)))
    (atEnd : ∀ locals renamed : Locals, locals.Agree known relabel renamed →
      Run.Rel (Flow.Agree known relabel) (spent locals) (otherSpent renamed)) (left : Nat) :
    ∀ (turn : Nat) (locals renamed : Locals), locals.Agree known relabel renamed →
      Run.Rel (Flow.Agree known relabel) (loopTurns counter test body spent left turn locals)
        (loopTurns otherCounter otherTest otherBody otherSpent left turn renamed) := by
  induction left with
  | zero => exact fun _ locals renamed agree => atEnd locals renamed agree
  | succ left ih =>
    intro turn locals renamed agree
    have iteration := once turn locals renamed agree
    simp only [loopTurns, sameTest turn locals renamed agree]
    refine (Run.Rel.refl (fun _ => rfl) _).bind fun goesOn _ same => ?_
    subst same
    cases goesOn with
    | false => exact .pure (.onward agree)
    | true =>
      have goOn := iteration.bind fun first second agreeAfter => agreeAfter.next (ih (turn + 1))
      simpa only [bind_map_left, if_true] using goOn

/-- All iterations of a loop agree when each does. -/
theorem TripBound.turns_agree (bound : TripBound) (setting : Setting)
    {counter otherCounter : Option String} {test otherTest : Locals → Run Bool}
    {body otherBody : Locals → Run Flow}
    (sameTest : ∀ (turn : Nat) (locals renamed : Locals), locals.Agree known relabel renamed →
      test (locals.enter counter turn) = otherTest (renamed.enter otherCounter turn))
    (once : ∀ (turn : Nat) (locals renamed : Locals), locals.Agree known relabel renamed →
      Run.Rel (Flow.Agree known relabel)
        (Flow.leave counter locals <$> body (locals.enter counter turn))
        (Flow.leave otherCounter renamed <$> otherBody (renamed.enter otherCounter turn)))
    (agree : locals.Agree known relabel renamed) :
    Run.Rel (Flow.Agree known relabel) (bound.turns setting counter test body locals)
      (bound.turns setting otherCounter otherTest otherBody renamed) := by
  unfold TripBound.turns
  cases bound.limit? with
  | none =>
    exact loopTurns_agree sameTest once (fun _ _ _ world => .error .unfinished world) _ _ _ _ agree
  | some trips =>
    exact loopTurns_agree sameTest once (fun _ _ agree => .pure (.onward agree)) _ _ _ _ agree

/-- The same run can come first on both sides. -/
theorem Run.Rel.after {α β γ : Type} {related : β → γ → Prop} (first : Run α) {next : α → Run β}
    {other : α → Run γ} (goOn : ∀ value, Run.Rel related (next value) (other value)) :
    Run.Rel related (first >>= next) (first >>= other) :=
  (Run.Rel.refl (fun _ => rfl) first).bind fun left right same => by
    subst same
    exact goOn left

/-- A renamed expression has the value of the original. -/
theorem Expr.value_rename (setting : Setting) {e : Expr}
    (agree : locals.Agree known relabel renamed)
    (reads : ∀ name ∈ e.reads, name ∈ known) :
    (e.rename relabel).value setting renamed = e.value setting locals := by
  rw [Expr.value, Expr.value,
    Expr.eval_rename setting e fun name read => agree name (reads name read)]

/-- A renamed condition holds when the original does. -/
theorem Expr.holds_rename (setting : Setting) {condition : Option Expr}
    (agree : locals.Agree known relabel renamed)
    (reads : ∀ name ∈ Args.reads condition.toList, name ∈ known) :
    Expr.holds setting (condition.map (Expr.rename relabel)) renamed =
      Expr.holds setting condition locals := by
  cases condition with
  | none => rfl
  | some e =>
    have readsHere : ∀ name ∈ e.reads, name ∈ known := by simpa using reads
    simp only [Option.map_some, Expr.holds, Expr.value_rename setting agree readsHere]

end Runs

mutual

/-- A renamed statement runs as the original does. -/
theorem Stmt.run_rebind (setting : Setting) (mark : Option String) : ∀ (s : Stmt)
    {known : Set String} {relabel : String → String} {locals renamed : Locals},
    s.boundName? = none → Set.InjOn relabel known → (∀ name ∈ s.free, name ∈ known) →
      s.avoidsCapture relabel = true → locals.Agree known relabel renamed →
        Run.Rel (Flow.Agree known relabel) (s.run setting locals)
          ((s.rebind relabel mark).1.run setting renamed)
  | .bind .., _, _, _, _, binds, _, _, _, _ => by simp [Stmt.boundName?] at binds
  | .assign name value, _, _, _, _, _, injective, used, _, agree => by
    simp only [Stmt.free, List.forall_mem_cons] at used
    have same := Expr.value_rename setting agree used.2
    have target := agree name used.1
    simp only [Stmt.rebind, Stmt.run, same, ← target]
    exact .after _ fun held => .after _ fun _ => .pure (.onward (agree.update injective used.1 _))
  | .setGlobal id value, _, _, _, _, _, _, used, _, agree => by
    have same := Expr.value_rename setting agree used
    simp only [Stmt.rebind, Stmt.run, same]
    exact .after _ fun held => .after _ fun _ => .pure (.onward agree)
  | .store id index value, _, _, _, _, _, _, used, _, agree => by
    simp only [Stmt.free, List.forall_mem_append] at used
    have position := Expr.value_rename setting agree used.1
    have same := Expr.value_rename setting agree used.2
    simp only [Stmt.rebind, Stmt.run, position, same]
    exact .after _ fun _ => .after _ fun held => .after _ fun _ => .pure (.onward agree)
  | .emit channel value, _, _, _, _, _, _, used, _, agree => by
    have same := Expr.value_rename setting agree used
    simp only [Stmt.rebind, Stmt.run, same]
    exact .after _ fun sent => .after _ fun _ => .pure (.onward agree)
  | .eval value, _, _, _, _, _, _, used, _, agree => by
    have same := Expr.eval_rename setting value fun name read => agree name (used name read)
    simp only [Stmt.rebind, Stmt.run, same]
    exact .after _ fun _ => .pure (.onward agree)
  | .branch cond thenBody elseBody _, _, _, _, _, _, injective, used, avoids, agree => by
    simp only [Stmt.free, List.forall_mem_append] at used
    rw [Stmt.avoidsCapture, Bool.and_eq_true] at avoids
    have decided := Expr.value_rename setting agree used.1
    have thenSame := Block.run_rebind setting none thenBody injective used.2.1 avoids.1 agree
    have elseSame := Block.run_rebind setting none elseBody injective used.2.2 avoids.2 agree
    simp only [Stmt.rebind, Stmt.run, decided]
    refine .after _ fun decision => ?_
    split
    · exact elseSame
    · exact thenSame
  | .loop none bound condition body, _, _, _, _, _, injective, used, avoids, agree => by
    have condUsed := fun name read => used name (Stmt.mem_free_loop.mpr ⟨.inl read, nofun⟩)
    have bodyUsed := fun name free => used name (Stmt.mem_free_loop.mpr ⟨.inr free, nofun⟩)
    rw [Stmt.avoidsCapture] at avoids
    simp only [Stmt.rebind, Stmt.run]
    refine bound.turns_agree setting (fun _ inner renamedInner agreeInner => ?_)
      (fun _ inner renamedInner agreeInner => ?_) agree
    · exact (Expr.holds_rename setting agreeInner condUsed).symm
    · simp only [Flow.leave_none, id_map]
      exact Block.run_rebind setting none body injective bodyUsed avoids agreeInner
  | .loop (some counter) bound condition body, known, relabel, _, _, _, injective, used, avoids,
      agree => by
    rw [Stmt.avoidsCapture, Bool.and_eq_true, hidesNone_iff] at avoids
    rw [keepName_eq] at avoids
    have usedInside : ∀ name, name ∈ Args.reads condition.toList ∨ name ∈ Block.free body →
        name ≠ counter → name ∈ known ∧ relabel name ≠ counter := by
      intro name inside apart
      refine ⟨used name (Stmt.mem_free_loop.mpr ⟨inside, ?_⟩), ?_⟩
      · exact fun same => apart (Option.some.inj same).symm
      · exact avoids.1 name (List.mem_append.mpr inside) apart
    have knownInside : ∀ name, name ∈ Args.reads condition.toList ∨ name ∈ Block.free body →
        name ∈ scopeNames known relabel counter counter := fun name inside =>
      (em (name = counter)).imp_right (usedInside name inside)
    simp only [Stmt.rebind, Stmt.run, keepName_eq]
    refine bound.turns_agree setting (fun turn inner renamedInner agreeInner => ?_)
      (fun turn inner renamedInner agreeInner => ?_) agree
    · exact (Expr.holds_rename setting (agreeInner.enter _)
        fun name read => knownInside name (.inl read)).symm
    · refine Block.run_scope setting injective agreeInner
        (fun name free => usedInside name (.inr free))
        (fun name free => Block.free_rebind _ none body free) ?_
      exact Block.run_rebind setting none body (setName_injOn injective)
        (fun name free => knownInside name (.inr free)) avoids.2 (agreeInner.enter _)
  | .ret none, _, _, _, _, _, _, _, _, _ => by
    exact .pure (.returned none)
  | .ret (some value), known, _, _, _, _, _, used, _, agree => by
    have reads : ∀ name ∈ value.reads, name ∈ known := by simpa [Stmt.free] using used
    have same := Expr.eval_rename setting value fun name read => agree name (reads name read)
    simp only [Stmt.rebind, Option.map_some, Stmt.run, same]
    exact .map (.refl (fun _ => rfl) _) fun left right same => same ▸ .returned left

/-- A renamed block runs as the original does, on locals that agree along the naming. -/
theorem Block.run_rebind (setting : Setting) (mark : Option String) : ∀ (block : Block)
    {known : Set String} {relabel : String → String} {locals renamed : Locals},
    Set.InjOn relabel known → (∀ name ∈ Block.free block, name ∈ known) →
      Block.avoidsCapture relabel mark block = true → locals.Agree known relabel renamed →
        Run.Rel (Flow.Agree known relabel) (Block.run setting block locals)
          (Block.run setting (Block.rebind relabel mark block) renamed)
  | [], _, _, _, _, _, _, _, agree => .pure (.onward agree)
  | s :: rest, known, relabel, locals, renamed, injective, used, avoids, agree => by
    rw [Block.avoidsCapture, Bool.and_eq_true, Bool.and_eq_true] at avoids
    have usedFirst := fun name free => used name (Block.mem_free_cons.mpr (.inl free))
    cases binds : s.boundName? with
    | none =>
      have usedLater := fun name free =>
        used name (Block.mem_free_cons.mpr (.inr ⟨free, by rw [binds]; exact nofun⟩))
      have naming := s.rebind_snd binds relabel mark
      have bindsAfter := s.boundName?_rebind relabel mark
      rw [binds, Option.map_none] at bindsAfter
      rw [naming] at avoids
      simp only [Block.rebind, Block.run, binds, bindsAfter, naming, Flow.leave_none, id_map]
      have first := Stmt.run_rebind setting mark s binds injective usedFirst avoids.1.1 agree
      exact first.bind fun _ _ agreeAfter => agreeAfter.next fun _ _ agreeInner =>
        Block.run_rebind setting mark rest injective usedLater avoids.2 agreeInner
    | some name => cases s with
      | bind bound type value =>
        cases binds
        have hides := hidesNone_iff.mp avoids.1.2
        have usedInside : ∀ other ∈ Block.free rest, other ≠ name →
            other ∈ known ∧ relabel other ≠ markedName mark name := by
          intro other free apart
          have kept : (Stmt.bind name type value).boundName? ≠ some other := fun same =>
            apart (Option.some.inj same).symm
          exact ⟨used other (Block.mem_free_cons.mpr (.inr ⟨free, kept⟩)), hides other free apart⟩
        have knownInside : ∀ other ∈ Block.free rest,
            other ∈ scopeNames known relabel name (markedName mark name) := fun other free =>
          (em (other = name)).imp_right (usedInside other free)
        rw [Stmt.rebind_bind] at avoids
        have same := Expr.value_rename setting agree usedFirst
        simp only [Block.rebind, Stmt.rebind_bind, Block.run, Stmt.run, Stmt.boundName?, same,
          bind_assoc, pure_bind, Flow.next_onward, Flow.leave_some]
        refine .after _ fun held => ?_
        refine Block.run_scope setting injective agree usedInside
          (fun other free => Block.free_rebind _ mark rest free) ?_
        exact Block.run_rebind setting mark rest (setName_injOn injective) knownInside avoids.2
          (agree.enter _)
      | _ => simp [Stmt.boundName?] at binds

end

/-- Marking the bindings of a block does not change its meaning, if no mark captures. -/
theorem Block.run_rebind_id (setting : Setting) {mark : Option String} {block : Block}
    (avoids : Block.avoidsCapture id mark block = true) (locals : Locals) :
    Block.run setting (Block.rebind id mark block) locals = Block.run setting block locals := by
  have agree : Locals.Agree { name | name ∈ Block.free block } id locals locals := fun _ _ => rfl
  have runs := Block.run_rebind setting mark block (Set.injOn_id _) (fun _ free => free) avoids
    agree
  have kept := runs.and_always (Block.run_keeps setting block locals)
    (Block.run_keeps setting (Block.rebind id mark block) locals)
  refine (Run.Rel.eq ?_).symm
  refine kept.mono fun first second ended => ?_
  obtain ⟨agreeAfter, keepsFirst, keepsSecond⟩ := ended
  cases agreeAfter with
  | returned value => rfl
  | @onward after renamed agreeAfter =>
    congr 1
    funext name
    by_cases free : name ∈ Block.free block
    · exact agreeAfter name free
    · have unused : name ∉ Block.free (Block.rebind id mark block) := by
        intro freeAfter
        obtain ⟨old, oldFree, rfl⟩ := Block.free_rebind id mark block freeAfter
        exact free oldFree
      exact Eq.trans (keepsFirst name free) (Eq.symm (keepsSecond name unused))

end Timebound
