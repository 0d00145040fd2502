import Timebound.Proofs.RewriteWeight

/-!
# Loads out of order

Two statements are out of order when the second is a load that sorting would put before the first.
Sorting a run of loads lowers the number of pairs out of order or leaves the run as it is, and so
does arranging the runs of a block (`Block.arrange_settles`) and grouping the loads of a block and
of all blocks nested in it (`Block.group_settles`). Sorted runs can stand next to each other and
form longer ones, so grouping may find more to do the second time; the number of pairs out of order
says how long that can go on.
-/

namespace Timebound

/-! ## Pairs out of order -/

section Inversions

variable {α : Type} (le : α → α → Bool)

/-- The number of pairs that stand in the wrong order. -/
def inversions : List α → Nat
  | [] => 0
  | x :: rest => rest.countP (fun y => !le x y) + inversions rest

/-- A change of the elements that the order does not see keeps the pairs out of order. -/
theorem inversions_map (f : α → α) (unseen : ∀ x y, le (f x) (f y) = le x y) (list : List α) :
    inversions le (list.map f) = inversions le list := by
  induction list with
  | nil => rfl
  | cons x rest ih =>
    rw [List.map_cons, inversions, inversions, ih, List.countP_map]
    simp only [Function.comp_def, unseen]

/-- Rearranging the end of a list changes only the pairs inside it. -/
theorem inversions_append_left (start : List α) {first second : List α}
    (same : first.Perm second) :
    inversions le (start ++ first) + inversions le second =
      inversions le (start ++ second) + inversions le first := by
  induction start with
  | nil => exact Nat.add_comm _ _
  | cons x start ih =>
    have seen := (same.append_left start).countP_eq (fun y => !le x y)
    simp only [List.cons_append, inversions]
    omega

/-- Rearranging the start of a list changes only the pairs inside it. -/
theorem inversions_append_right {first second : List α} (same : first.Perm second)
    (rest : List α) :
    inversions le (first ++ rest) + inversions le second =
      inversions le (second ++ rest) + inversions le first := by
  induction same with
  | nil => rfl
  | @cons x first second inner ih =>
    have seen := (inner.append_right rest).countP_eq (fun y => !le x y)
    have alone := inner.countP_eq (fun y => !le x y)
    simp only [List.cons_append, inversions]
    omega
  | swap x y tail =>
    simp only [List.cons_append, inversions, List.countP_cons, List.countP_append]
    omega
  | trans _ _ first second => omega

variable {le} (total : ∀ x y, le x y = false → le y x = true)

include total

/-- Insertion puts an element in front of the list, or into a place with fewer pairs out of
order. -/
theorem insertSorted_settles (x : α) (list : List α) : insertSorted le x list = x :: list ∨
    inversions le (insertSorted le x list) < inversions le (x :: list) := by
  induction list with
  | nil => exact .inl rfl
  | cons y rest ih =>
    rw [insertSorted]
    split
    · exact .inl rfl
    · -- The element moves past `y`: that pair was out of order and no longer is.
      rename_i later
      have later : le x y = false := Bool.eq_false_iff.mpr later
      have passed := (insertSorted_perm le x rest).countP_eq (fun z => !le y z)
      have inner : inversions le (insertSorted le x rest) ≤ inversions le (x :: rest) :=
        ih.elim (fun same => same ▸ Nat.le_refl _) Nat.le_of_lt
      rw [List.countP_cons_of_neg (by rw [total x y later]; exact Bool.false_ne_true)] at passed
      have wrong : (y :: rest).countP (fun z => !le x z) = rest.countP (fun z => !le x z) + 1 :=
        List.countP_cons_of_pos (by rw [later]; rfl)
      simp only [inversions] at inner ⊢
      exact .inr (by omega)

/-- Sorting leaves a list alone or lowers the number of its pairs out of order. -/
theorem stableSort_settles (list : List α) : stableSort le list = list ∨
    inversions le (stableSort le list) < inversions le list := by
  induction list with
  | nil => exact .inl rfl
  | cons x rest ih =>
    have placed := insertSorted_settles total x (stableSort le rest)
    have seen := (stableSort_perm le rest).countP_eq (fun y => !le x y)
    rw [stableSort]
    rcases ih with same | fewer
    · rwa [same] at placed ⊢
    · have behind : inversions le (insertSorted le x (stableSort le rest)) ≤
          inversions le (x :: stableSort le rest) :=
        placed.elim (fun same => same ▸ Nat.le_refl _) Nat.le_of_lt
      simp only [inversions] at behind ⊢
      exact .inr (by omega)

end Inversions

/-- Two parts, each of which is left alone or lowered, are both left alone or lowered together. -/
theorem both_settle {first second : Prop} {a b c d : Nat} (one : first ∨ a < b)
    (two : second ∨ c < d) (sameFirst : first → a = b) (sameSecond : second → c = d) :
    (first ∧ second) ∨ a + c < b + d := by
  rcases one with alone | lower
  · have same := sameFirst alone
    exact two.imp (⟨alone, ·⟩) (by omega)
  · have upper : c ≤ d := two.elim (Nat.le_of_eq ∘ sameSecond) Nat.le_of_lt
    exact .inr (by omega)

/-! ## Runs of loads -/

/-- Of two statements, one comes no later than the other. -/
theorem Stmt.loadsNoLater_total (first second : Stmt) (later : first.loadsNoLater second = false) :
    second.loadsNoLater first = true := by
  unfold Stmt.loadsNoLater at later ⊢
  generalize first.literalLoad? = load, second.literalLoad? = other at later ⊢
  rcases load with _ | ⟨⟨slot⟩, index⟩
  · cases later
  · rcases other with _ | ⟨⟨place⟩, position⟩
    · rfl
    · simp only [beq_iff_eq, ne_eq, Id.mk.injEq, Bool.or_eq_true, Bool.and_eq_true,
        decide_eq_true_eq, Bool.or_eq_false_iff, Bool.and_eq_false_iff, beq_eq_false_iff_ne,
        decide_eq_false_iff_not] at later ⊢
      omega

namespace Block

/-- The number of pairs of statements of a block that are out of order. -/
def misplaced (block : Block) : Nat := inversions Stmt.loadsNoLater block

/-- A run is left alone or has fewer pairs out of order. -/
theorem arrangeRun_settles (run : Block) :
    arrangeRun run = run ∨ misplaced (arrangeRun run) < misplaced run := by
  unfold arrangeRun
  split
  · exact stableSort_settles Stmt.loadsNoLater_total run
  · exact .inl rfl

/-- Runs that follow each other are left alone or have fewer pairs out of order. -/
theorem arrangeRuns_settles (runs : List Block) : runs.flatMap arrangeRun = runs.flatten ∨
    misplaced (runs.flatMap arrangeRun) < misplaced runs.flatten := by
  induction runs with
  | nil => exact .inl rfl
  | cons run rest ih =>
    have first := inversions_append_right Stmt.loadsNoLater (arrangeRun_perm run)
      (rest.flatMap arrangeRun)
    have second := inversions_append_left Stmt.loadsNoLater run (arrangeRuns_perm rest)
    rw [List.flatMap_cons, List.flatten_cons]
    refine (both_settle (arrangeRun_settles run) ih (congrArg misplaced) (congrArg misplaced)).imp
      (fun ⟨same, sameRest⟩ => by rw [same, sameRest]) fun fewer => ?_
    simp only [misplaced] at fewer ⊢
    omega

/-- Arranging the runs of a block leaves it alone or lowers the number of pairs out of order. -/
theorem arrange_settles (block : Block) :
    arrange block = block ∨ misplaced (arrange block) < misplaced block := by
  have runs := arrangeRuns_settles (runsFrom [] block)
  rwa [flatten_runsFrom, List.nil_append] at runs

end Block

/-! ## Nested blocks -/

mutual

/-- The number of pairs out of order in the blocks nested in a statement. -/
def Stmt.disorder : Stmt → Nat
  | .branch _ thenBody elseBody _ =>
    Block.misplaced thenBody + Block.nestedDisorder thenBody +
      (Block.misplaced elseBody + Block.nestedDisorder elseBody)
  | .loop _ _ _ body => Block.misplaced body + Block.nestedDisorder body
  | .bind .. | .assign .. | .setGlobal .. | .store .. | .emit .. | .eval _ | .ret _ => 0

/-- The number of pairs out of order in the blocks nested in a block. -/
def Block.nestedDisorder : List Stmt → Nat
  | [] => 0
  | s :: rest => s.disorder + Block.nestedDisorder rest

end

namespace Block

/-- The number of pairs out of order in a block and in all blocks nested in it. -/
def disorder (block : Block) : Nat := misplaced block + nestedDisorder block

/-- The pairs out of order in nested blocks are those of the statements. -/
theorem nestedDisorder_eq_sumOver (block : Block) :
    nestedDisorder block = sumOver Stmt.disorder block := by
  induction block with
  | nil => rfl
  | cons s rest ih => rw [nestedDisorder, ih]; rfl

/-- Grouping the loads in nested blocks changes each statement by itself. -/
theorem groupNested_eq_map (block : Block) : groupNested block = block.map Stmt.group := by
  induction block with
  | nil => rfl
  | cons s rest ih => rw [groupNested, ih, List.map_cons]

/-- Grouping the loads in nested blocks keeps the order of the statements themselves. -/
theorem misplaced_groupNested (block : Block) :
    misplaced (groupNested block) = misplaced block := by
  have load (s : Stmt) : s.group.literalLoad? = s.literalLoad? := by cases s <;> rfl
  rw [groupNested_eq_map]
  refine inversions_map _ _ (fun first second => ?_) block
  rw [Stmt.loadsNoLater, Stmt.loadsNoLater, load, load]

/-- A block whose nested blocks are grouped is left alone or gets closer to order. -/
theorem group_settles_of_nested {block : Block}
    (nested : groupNested block = block ∨
      nestedDisorder (groupNested block) < nestedDisorder block) :
    group block = block ∨ disorder (group block) < disorder block := by
  have inside : nestedDisorder (arrange (groupNested block)) =
      nestedDisorder (groupNested block) := by
    rw [nestedDisorder_eq_sumOver, nestedDisorder_eq_sumOver]
    exact sumOver_perm _ (arrange_perm _)
  refine (both_settle (arrange_settles (groupNested block)) nested (congrArg misplaced)
    (congrArg nestedDisorder)).imp (fun ⟨same, sameNested⟩ => same.trans sameNested) fun fewer => ?_
  rw [misplaced_groupNested] at fewer
  unfold group disorder
  omega

end Block

mutual

/-- Grouping the loads in a statement leaves it alone or lowers its pairs out of order. -/
theorem Stmt.group_settles : ∀ s : Stmt, s.group = s ∨ s.group.disorder < s.disorder
  | .bind .. | .assign .. | .setGlobal .. | .store .. | .emit .. | .eval _ | .ret _ => .inl rfl
  | .branch cond thenBody elseBody likelihood => by
    have first := Block.group_settles_of_nested (Block.groupNested_settles thenBody)
    have second := Block.group_settles_of_nested (Block.groupNested_settles elseBody)
    change Stmt.branch cond (Block.group thenBody) (Block.group elseBody) likelihood = _ ∨
      Block.disorder (Block.group thenBody) + Block.disorder (Block.group elseBody) <
        Block.disorder thenBody + Block.disorder elseBody
    exact (both_settle first second (congrArg Block.disorder) (congrArg Block.disorder)).imp_left
      fun ⟨same, sameElse⟩ => by rw [same, sameElse]
  | .loop counter bound condition body =>
    (Block.group_settles_of_nested (Block.groupNested_settles body)).imp_left
      (congrArg (Stmt.loop counter bound condition))

/-- Grouping the loads in nested blocks leaves them alone or lowers their pairs out of order. -/
theorem Block.groupNested_settles : ∀ block : List Stmt, Block.groupNested block = block ∨
    Block.nestedDisorder (Block.groupNested block) < Block.nestedDisorder block
  | [] => .inl rfl
  | s :: rest => by
    rw [Block.groupNested, Block.nestedDisorder, Block.nestedDisorder]
    exact (both_settle (Stmt.group_settles s) (Block.groupNested_settles rest)
      (congrArg Stmt.disorder) (congrArg Block.nestedDisorder)).imp_left
        fun ⟨same, sameRest⟩ => by rw [same, sameRest]

end

/-- Grouping loads leaves a block alone or lowers the number of its pairs out of order. -/
theorem Block.group_settles (block : Block) :
    Block.group block = block ∨ Block.disorder (Block.group block) < Block.disorder block :=
  Block.group_settles_of_nested (Block.groupNested_settles block)

end Timebound
