import Timebound.Guided.Pass
import Timebound.Proofs.Renaming

/-!
# Local names of a body

The local names of a block are those it binds, assigns or reads, the counters of its
loops among them. Given what should hold of its names, and of its counters besides, a
block is worded accordingly when it does (`Block.Worded`). Renaming, unrolling, branch
order and load grouping keep blocks worded, as long as the names they make up are
allowed.
-/

namespace Timebound

/-! ## Worded blocks -/

mutual

/-- The local names of a statement. -/
def Stmt.localNames : Stmt → List String
  | .bind name _ value | .assign name value => name :: value.reads
  | .setGlobal _ value | .emit _ value | .eval value => value.reads
  | .store _ index value => index.reads ++ value.reads
  | .branch cond thenBody elseBody _ =>
    cond.reads ++ (Block.localNames thenBody ++ Block.localNames elseBody)
  | .loop counter _ condition body =>
    counter.toList ++ (Args.reads condition.toList ++ Block.localNames body)
  | .ret value => Args.reads value.toList

/-- The local names of a block. -/
def Block.localNames : List Stmt → List String
  | [] => []
  | s :: rest => s.localNames ++ Block.localNames rest

end

/-- What holds of the names an expression reads. -/
def Expr.Worded (allowed : String → Prop) (e : Expr) : Prop := ∀ name ∈ e.reads, allowed name

/-- What holds of the names arguments read. -/
def Args.Worded (allowed : String → Prop) (args : List Expr) : Prop :=
  ∀ name ∈ Args.reads args, allowed name

mutual

/-- What holds of the local names of a statement, and of its counters. -/
def Stmt.Worded (allowed counts : String → Prop) : Stmt → Prop
  | .bind name _ value | .assign name value => allowed name ∧ value.Worded allowed
  | .setGlobal _ value | .emit _ value | .eval value => value.Worded allowed
  | .store _ index value => index.Worded allowed ∧ value.Worded allowed
  | .branch cond thenBody elseBody _ => cond.Worded allowed ∧
    Block.Worded allowed counts thenBody ∧ Block.Worded allowed counts elseBody
  | .loop counter _ condition body => (∀ name ∈ counter, allowed name ∧ counts name) ∧
    Args.Worded allowed condition.toList ∧ Block.Worded allowed counts body
  | .ret value => Args.Worded allowed value.toList

/-- What holds of the local names of a block, and of its counters. -/
def Block.Worded (allowed counts : String → Prop) : List Stmt → Prop
  | [] => True
  | s :: rest => s.Worded allowed counts ∧ Block.Worded allowed counts rest

end

section

variable {allowed counts : String → Prop}

mutual

/-- A statement is worded when its names are allowed and its counters count. -/
theorem Stmt.worded_iff : ∀ s : Stmt, s.Worded allowed counts ↔
    (∀ name ∈ s.localNames, allowed name) ∧ ∀ name ∈ s.counters, counts name
  | .bind .. | .assign .. => by
    simp [Stmt.Worded, Stmt.localNames, Stmt.counters, Expr.Worded]
  | .setGlobal .. | .emit .. | .eval _ => by
    simp [Stmt.Worded, Stmt.localNames, Stmt.counters, Expr.Worded]
  | .store .. => by
    simp [Stmt.Worded, Stmt.localNames, Stmt.counters, Expr.Worded, or_imp, forall_and]
  | .ret _ => by
    simp [Stmt.Worded, Stmt.localNames, Stmt.counters, Args.Worded]
  | .branch cond thenBody elseBody _ => by
    have inThen := Block.worded_iff thenBody
    have inElse := Block.worded_iff elseBody
    simp only [Stmt.Worded, Stmt.localNames, Stmt.counters, Expr.Worded, List.mem_append, or_imp,
      forall_and, inThen, inElse]
    tauto
  | .loop counter _ condition body => by
    have inner := Block.worded_iff body
    simp only [Stmt.Worded, Stmt.localNames, Stmt.counters, Args.Worded, List.mem_append, or_imp,
      forall_and, inner, Option.mem_toList]
    tauto

/-- A block is worded when its names are allowed and its counters count. -/
theorem Block.worded_iff : ∀ block : Block, Block.Worded allowed counts block ↔
    (∀ name ∈ Block.localNames block, allowed name) ∧ ∀ name ∈ Block.counters block, counts name
  | [] => by simp [Block.Worded, Block.localNames, Block.counters]
  | s :: rest => by
    have first := Stmt.worded_iff s
    have others := Block.worded_iff rest
    simp only [Block.Worded, Block.localNames, Block.counters, List.mem_append, or_imp, forall_and,
      first, others]
    tauto

end

/-- A block is worded when its statements are. -/
theorem Block.worded_iff_forall {block : Block} :
    Block.Worded allowed counts block ↔ ∀ s ∈ block, s.Worded allowed counts := by
  induction block with
  | nil => simp [Block.Worded]
  | cons s rest ih => simp [Block.Worded, ih]

@[simp] theorem Block.worded_append {first second : Block} :
    Block.Worded allowed counts (first ++ second) ↔
      Block.Worded allowed counts first ∧ Block.Worded allowed counts second := by
  simp only [Block.worded_iff_forall, List.mem_append, or_imp, forall_and]

@[simp] theorem Block.worded_singleton {s : Stmt} :
    Block.Worded allowed counts [s] ↔ s.Worded allowed counts := by
  simp [Block.Worded]

/-- Allowing more names keeps a block worded. -/
theorem Block.Worded.mono {wider : String → Prop} {block : Block}
    (worded : Block.Worded allowed counts block) (weaker : ∀ name, allowed name → wider name) :
    Block.Worded wider counts block := by
  rw [Block.worded_iff] at worded ⊢
  exact ⟨fun name listed => weaker name (worded.1 name listed), worded.2⟩

/-- Allowing more names keeps a statement worded. -/
theorem Stmt.Worded.mono {wider : String → Prop} {s : Stmt} (worded : s.Worded allowed counts)
    (weaker : ∀ name, allowed name → wider name) : s.Worded wider counts := by
  rw [Stmt.worded_iff] at worded ⊢
  exact ⟨fun name listed => weaker name (worded.1 name listed), worded.2⟩

/-! ## Renaming -/

/-- A renamed expression reads the new names. -/
theorem Expr.Worded.rename {relabel : String → String} {e : Expr}
    (worded : e.Worded fun name => allowed (relabel name)) : (e.rename relabel).Worded allowed := by
  unfold Expr.Worded
  rw [Expr.reads_rename]
  exact List.forall_mem_map.mpr worded

/-- A renamed optional expression reads the new names. -/
theorem Args.Worded.rename {relabel : String → String} {e : Option Expr}
    (worded : Args.Worded (fun name => allowed (relabel name)) e.toList) :
    Args.Worded allowed (e.map (Expr.rename relabel)).toList := by
  unfold Args.Worded
  rw [Args.reads_map_toList]
  exact List.forall_mem_map.mpr worded

mutual

/-- A renamed statement has the new names. -/
theorem Stmt.worded_rename {relabel : String → String} (named : ∀ name, allowed (relabel name))
    (counted : ∀ name, counts (relabel name)) : ∀ s : Stmt, (s.rename relabel).Worded allowed counts
  | .bind name _ value | .assign name value =>
    ⟨named name, Expr.Worded.rename fun read _ => named read⟩
  | .setGlobal _ value | .emit _ value | .eval value => Expr.Worded.rename fun read _ => named read
  | .store _ index value =>
    ⟨Expr.Worded.rename fun read _ => named read, Expr.Worded.rename fun read _ => named read⟩
  | .branch cond thenBody elseBody _ => ⟨Expr.Worded.rename fun read _ => named read,
    Block.worded_rename named counted thenBody, Block.worded_rename named counted elseBody⟩
  | .loop counter _ condition body => by
    refine ⟨fun name counter' => ?_, Args.Worded.rename fun read _ => named read,
      Block.worded_rename named counted body⟩
    obtain ⟨old, _, rfl⟩ := Option.map_eq_some_iff.mp counter'
    exact ⟨named old, counted old⟩
  | .ret value => Args.Worded.rename fun read _ => named read

/-- A renamed block has the new names. -/
theorem Block.worded_rename {relabel : String → String} (named : ∀ name, allowed (relabel name))
    (counted : ∀ name, counts (relabel name)) : ∀ block : Block,
      Block.Worded allowed counts (Block.rename relabel block)
  | [] => trivial
  | s :: rest => ⟨Stmt.worded_rename named counted s, Block.worded_rename named counted rest⟩

end

/-- What must hold of a name so that its new names are allowed: where it stays, where it
is renamed and where it is marked. -/
def Rebindable (allowed : String → Prop) (relabel : String → String) (mark : Option String)
    (name : String) : Prop :=
  allowed name ∧ allowed (relabel name) ∧ ∀ text ∈ mark, allowed (text ++ name)

/-- Names whose new names are allowed have allowed names after a statement, too. -/
theorem Rebindable.next {relabel : String → String} {mark : Option String} {s : Stmt}
    {name : String} (rebindable : Rebindable allowed relabel mark name) :
    Rebindable allowed (s.rebind relabel mark).2 mark name := by
  refine ⟨rebindable.1, ?_, rebindable.2.2⟩
  cases binds : s.boundName? with
  | none =>
    rw [Stmt.rebind_snd binds]
    exact rebindable.2.1
  | some bound => cases s with
    | bind held type value =>
      rw [Stmt.rebind_bind]
      simp only [setName]
      split
      · rename_i same
        rw [← same]
        cases mark with
        | none => exact rebindable.1
        | some text => exact rebindable.2.2 text rfl
      · exact rebindable.2.1
    | _ => simp [Stmt.boundName?] at binds

/-- Names that are kept under a new naming are allowed without a mark. -/
theorem Rebindable.keep {relabel : String → String} {mark : Option String} {name : String}
    (rebindable : Rebindable allowed relabel mark name) (kept : String) :
    Rebindable allowed (keepName relabel kept) none name := by
  refine ⟨rebindable.1, ?_, nofun⟩
  unfold keepName
  split
  · exact rebindable.1
  · exact rebindable.2.1

mutual

/-- A statement with its locals renamed is worded when all new names are allowed. -/
theorem Stmt.Worded.rebind (relabel : String → String) (mark : Option String) : ∀ s : Stmt,
    s.Worded (Rebindable allowed relabel mark) counts →
      (s.rebind relabel mark).1.Worded allowed counts
  | .bind name _ value, worded => by
    rw [Stmt.rebind_bind]
    refine ⟨?_, Expr.Worded.rename fun read listed => (worded.2 read listed).2.1⟩
    cases mark with
    | none => exact worded.1.1
    | some text => exact worded.1.2.2 text rfl
  | .assign name value, worded =>
    ⟨worded.1.2.1, Expr.Worded.rename fun read listed => (worded.2 read listed).2.1⟩
  | .setGlobal _ value, worded | .emit _ value, worded | .eval value, worded =>
    Expr.Worded.rename fun read listed => (worded read listed).2.1
  | .store _ index value, worded =>
    ⟨Expr.Worded.rename fun read listed => (worded.1 read listed).2.1,
      Expr.Worded.rename fun read listed => (worded.2 read listed).2.1⟩
  | .branch cond thenBody elseBody _, worded => by
    have unmarked (name : String) (rebindable : Rebindable allowed relabel mark name) :
        Rebindable allowed relabel none name := ⟨rebindable.1, rebindable.2.1, nofun⟩
    exact ⟨Expr.Worded.rename fun read listed => (worded.1 read listed).2.1,
      Block.Worded.rebind relabel none thenBody (worded.2.1.mono unmarked),
      Block.Worded.rebind relabel none elseBody (worded.2.2.mono unmarked)⟩
  | .loop (some counter) _ condition body, worded => by
    have kept (name : String) (rebindable : Rebindable allowed relabel mark name) :=
      rebindable.keep counter
    refine ⟨fun name same => ⟨(worded.1 name same).1.1, (worded.1 name same).2⟩,
      Args.Worded.rename fun read listed => (kept read (worded.2.1 read listed)).2.1,
      Block.Worded.rebind (keepName relabel counter) none body (worded.2.2.mono kept)⟩
  | .loop none _ condition body, worded => by
    have unmarked (name : String) (rebindable : Rebindable allowed relabel mark name) :
        Rebindable allowed relabel none name := ⟨rebindable.1, rebindable.2.1, nofun⟩
    exact ⟨nofun, Args.Worded.rename fun read listed => (worded.2.1 read listed).2.1,
      Block.Worded.rebind relabel none body (worded.2.2.mono unmarked)⟩
  | .ret value, worded => Args.Worded.rename fun read listed => (worded read listed).2.1

/-- A block with its locals renamed is worded when all new names are allowed. -/
theorem Block.Worded.rebind (relabel : String → String) (mark : Option String) : ∀ block : Block,
    Block.Worded (Rebindable allowed relabel mark) counts block →
      Block.Worded allowed counts (Block.rebind relabel mark block)
  | [], _ => trivial
  | s :: rest, worded =>
    ⟨Stmt.Worded.rebind relabel mark s worded.1,
      Block.Worded.rebind _ mark rest (worded.2.mono fun _ rebindable => rebindable.next)⟩

end

/-! ## Unrolling -/

/-- Copies of a worded loop body are worded when the names they mark are allowed. -/
theorem worded_loopCopy {counter : Option String} {body : Block}
    (outside : ∀ name ∈ counter, allowed name) (copy : Nat)
    (marked : ∀ name, allowed (copyMark counter copy ++ name))
    (worded : Block.Worded allowed counts body) :
    Block.Worded allowed counts (loopCopy counter body copy) := by
  unfold loopCopy
  rw [Block.worded_append]
  constructor
  · cases counter with
    | none => trivial
    | some name => exact ⟨⟨outside name rfl, nofun⟩, trivial⟩
  · refine Block.Worded.rebind id _ body (worded.mono fun name holds => ⟨holds, holds, ?_⟩)
    rintro text same
    cases same
    exact marked name

/-- The names that unrolling makes up are allowed. -/
def CopiesAllowed (allowed counts : String → Prop) : Prop :=
  ∀ counter : Option String, (∀ name ∈ counter, counts name) → ∀ copy name,
    allowed (copyMark counter copy ++ name)

mutual

/-- Unrolling keeps a statement worded when the names it marks are allowed. -/
theorem Stmt.Worded.unroll (marked : CopiesAllowed allowed counts) (limit : Nat)
    (bindable : List String) : ∀ s : Stmt,
      s.Worded allowed counts → Block.Worded allowed counts (s.unroll limit bindable)
  | .bind .., worded | .assign .., worded | .setGlobal .., worded | .store .., worded
  | .emit .., worded | .eval _, worded | .ret _, worded => ⟨worded, trivial⟩
  | .branch _ thenBody elseBody _, worded =>
    ⟨⟨worded.1, Block.Worded.unroll marked limit bindable thenBody worded.2.1,
      Block.Worded.unroll marked limit bindable elseBody worded.2.2⟩, trivial⟩
  | .loop counter bound condition body, worded => by
    have inner := Block.Worded.unroll marked limit bindable body worded.2.2
    rw [Stmt.unroll]
    split
    · rw [Block.worded_iff_forall]
      intro s listed
      obtain ⟨copy, _, made⟩ := List.mem_flatMap.mp listed
      have copied := worded_loopCopy (fun name same => (worded.1 name same).1) copy
        (marked counter (fun name same => (worded.1 name same).2) copy) inner
      exact Block.worded_iff_forall.mp copied s made
    · exact ⟨⟨worded.1, worded.2.1, inner⟩, trivial⟩

/-- Unrolling keeps a block worded when the names it marks are allowed. -/
theorem Block.Worded.unroll (marked : CopiesAllowed allowed counts) (limit : Nat)
    (bindable : List String) : ∀ block : Block, Block.Worded allowed counts block →
      Block.Worded allowed counts (Block.unroll limit bindable block)
  | [], _ => trivial
  | s :: rest, worded => Block.worded_append.mpr
    ⟨Stmt.Worded.unroll marked limit bindable s worded.1,
      Block.Worded.unroll marked limit bindable rest worded.2⟩

end

/-! ## Order of arms and loads -/

/-- The opposite of a condition reads the same names. -/
theorem Expr.reads_opposite (e : Expr) : e.opposite.reads = e.reads := by
  unfold Expr.opposite
  split <;> rfl

mutual

/-- Putting likely arms first keeps a statement worded. -/
theorem Stmt.Worded.reorder : ∀ s : Stmt,
    s.Worded allowed counts → s.reorder.Worded allowed counts
  | .bind .., worded | .assign .., worded | .setGlobal .., worded | .store .., worded
  | .emit .., worded | .eval _, worded | .ret _, worded => worded
  | .branch cond thenBody elseBody _, worded => by
    have inThen := Block.Worded.reorder thenBody worded.2.1
    have inElse := Block.Worded.reorder elseBody worded.2.2
    simp only [Stmt.reorder]
    split
    · refine ⟨?_, inElse, inThen⟩
      unfold Expr.Worded
      rw [Expr.reads_opposite]
      exact worded.1
    · exact ⟨worded.1, inThen, inElse⟩
  | .loop _ _ _ body, worded => ⟨worded.1, worded.2.1, Block.Worded.reorder body worded.2.2⟩

/-- Putting likely arms first keeps a block worded. -/
theorem Block.Worded.reorder : ∀ block : Block,
    Block.Worded allowed counts block → Block.Worded allowed counts (Block.reorder block)
  | [], _ => trivial
  | s :: rest, worded => ⟨Stmt.Worded.reorder s worded.1, Block.Worded.reorder rest worded.2⟩

end

/-- Arranging the runs of a block keeps it worded. -/
theorem Block.Worded.arrange {block : Block} (worded : Block.Worded allowed counts block) :
    Block.Worded allowed counts (Block.arrange block) := by
  rw [Block.worded_iff_forall] at worded ⊢
  exact fun s listed => worded s ((Block.arrange_perm block).mem_iff.mp listed)

mutual

/-- Grouping loads keeps a statement worded. -/
theorem Stmt.Worded.group : ∀ s : Stmt, s.Worded allowed counts → s.group.Worded allowed counts
  | .bind .., worded | .assign .., worded | .setGlobal .., worded | .store .., worded
  | .emit .., worded | .eval _, worded | .ret _, worded => worded
  | .branch _ thenBody elseBody _, worded =>
    ⟨worded.1, (Block.Worded.groupNested thenBody worded.2.1).arrange,
      (Block.Worded.groupNested elseBody worded.2.2).arrange⟩
  | .loop _ _ _ body, worded =>
    ⟨worded.1, worded.2.1, (Block.Worded.groupNested body worded.2.2).arrange⟩

/-- Grouping loads in nested blocks keeps a block worded. -/
theorem Block.Worded.groupNested : ∀ block : Block,
    Block.Worded allowed counts block → Block.Worded allowed counts (Block.groupNested block)
  | [], _ => trivial
  | s :: rest, worded => ⟨Stmt.Worded.group s worded.1, Block.Worded.groupNested rest worded.2⟩

end

end

end Timebound
