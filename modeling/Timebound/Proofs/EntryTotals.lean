import Timebound.Proofs.NameIndex

/-!
# Totals over the entries of an arena

Numbers that are summed over all entries, such as the size of a program over its functions. A
total is the share of one entry and the total over the others (`Arena.total_of_get?`), and an
edit of one entry leaves the others alone. So an update changes a total by the difference it
makes to its entry (`Arena.total_update`), and a removal takes the share of its entry away
(`Arena.total_remove`).
-/

namespace Timebound.Arena

variable {kind : Kind} {α : Type}

/-- The sum of a value over listed entries. -/
def sumOver (value : Id kind → α → Nat) (entries : List (Id kind × α)) : Nat :=
  entries.foldr (fun entry rest => value entry.1 entry.2 + rest) 0

/-- The sum of a value over the entries of an arena. -/
def total (arena : Arena kind α) (value : Id kind → α → Nat) : Nat := sumOver value arena.entries

/-- The entries under all ids but one. -/
def others (arena : Arena kind α) (id : Id kind) : List (Id kind × α) :=
  arena.entries.filter fun listed => decide (listed.1 ≠ id)

/-- An edit of one slot leaves the other entries alone. -/
theorem others_congr {arena changed : Arena kind α} {id : Id kind}
    (slots : changed.slotCount = arena.slotCount)
    (elsewhere : ∀ other, other ≠ id → changed.get? other = arena.get? other) :
    changed.others id = arena.others id := by
  rw [others, others, entries_eq, entries_eq, slots, List.filter_filterMap, List.filter_filterMap]
  refine List.filterMap_congr fun slot _ => ?_
  by_cases same : (⟨slot⟩ : Id kind) = id
  · -- The edited slot is filtered out on both sides.
    have gone (held : Option α) : (held.map fun entry => ((⟨slot⟩ : Id kind), entry)).filter
        (fun listed => decide (listed.1 ≠ id)) = none := by
      cases held <;> simp [Option.filter, same]
    rw [gone, gone]
  · rw [elsewhere _ same]

/-- A sum over entries of distinct ids is one share and the sum over the others. -/
theorem sumOver_of_mem (value : Id kind → α → Nat) {id : Id kind} {entry : α} :
    ∀ {entries : List (Id kind × α)}, (entries.map (·.1)).Nodup → (id, entry) ∈ entries →
      sumOver value entries =
        value id entry + sumOver value (entries.filter fun listed => decide (listed.1 ≠ id))
  | [], _, listed => absurd listed List.not_mem_nil
  | (other, held) :: rest, distinct, listed => by
    rw [List.map_cons, List.nodup_cons] at distinct
    rcases List.mem_cons.mp listed with first | later
    · cases first
      have apart : (rest.filter fun listed => decide (listed.1 ≠ id)) = rest := by
        refine List.filter_eq_self.mpr fun listed present => decide_eq_true fun hit => ?_
        exact distinct.1 (List.mem_map.mpr ⟨listed, present, hit⟩)
      simp only [List.filter_cons, ne_eq, not_true, decide_false, Bool.false_eq_true, if_false]
      rw [apart]
      rfl
    · have differs : other ≠ id := fun same =>
        distinct.1 (List.mem_map.mpr ⟨(id, entry), later, same.symm⟩)
      have tail := sumOver_of_mem value distinct.2 later
      rw [List.filter_cons, if_pos (decide_eq_true differs)]
      simp only [sumOver, List.foldr_cons] at tail ⊢
      omega

variable {arena : Arena kind α} {id : Id kind} {entry : α}

/-- A total is the share of one entry and the sum over the others. -/
theorem total_of_get? (found : arena.get? id = some entry) (value : Id kind → α → Nat) :
    arena.total value = value id entry + sumOver value (arena.others id) :=
  sumOver_of_mem value arena.nodup_ids (mem_entries.mpr found)

/-- An update changes a total by the difference it makes to its entry. -/
theorem total_update {changed : Arena kind α} {change : α → α}
    (found : arena.get? id = some entry) (updated : arena.update? id change = some changed)
    (value : Id kind → α → Nat) :
    changed.total value + value id entry = arena.total value + value id (change entry) := by
  have present : changed.get? id = some (change entry) := by
    rw [get?_update updated, if_pos rfl, found, Option.map_some]
  have apart : changed.others id = arena.others id :=
    others_congr (slotCount_update updated) fun other differs => by
      rw [get?_update updated, if_neg differs]
  rw [total_of_get? found, total_of_get? present, apart]
  omega

/-- A removal takes the share of its entry off a total. -/
theorem total_remove [Named α] {left : Arena kind α}
    (removed : arena.remove? id = some (entry, left)) (value : Id kind → α → Nat) :
    left.total value + value id entry = arena.total value := by
  have found : arena.get? id = some entry := by
    obtain ⟨held, found, made⟩ := Option.map_eq_some_iff.mp removed
    cases made
    exact found
  have apart : left.others id = arena.others id :=
    others_congr (slotCount_remove removed) fun other differs => by
      rw [get?_remove removed, if_neg differs]
  have whole : left.others id = left.entries := by
    refine List.filter_eq_self.mpr fun listed present => decide_eq_true fun hit => ?_
    have gone := mem_entries.mp (show (listed.1, listed.2) ∈ left.entries from present)
    rw [get?_remove removed, if_pos hit] at gone
    cases gone
  rw [total_of_get? found, ← apart, whole, total, Nat.add_comm]

end Timebound.Arena
