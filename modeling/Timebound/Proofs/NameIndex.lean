import Timebound.Proofs.Journal

/-!
# Names and entries

An arena is indexed when the names taken are those of its entries, each standing for the
entry that has it (`Arena.Indexed`). Additions and removals keep it so, and so do changes
that leave the name of an entry alone; only the name inside an entry can get out of step
with the index. An indexed arena has as many names as entries
(`Arena.Indexed.count_eq`).
-/

namespace Timebound

namespace Arena

variable {kind : Kind} {α : Type} [Named α] {arena : Arena kind α}

/-- The names taken are those of the entries, and each stands for its entry. -/
def Indexed (arena : Arena kind α) : Prop :=
  ∀ name id, arena.idOf? name = some id ↔
    ∃ entry, arena.get? id = some entry ∧ Named.name entry = name

/-! ## Operations -/

/-- An arena without entries is indexed. -/
theorem Indexed.empty : ({} : Arena kind α).Indexed := by
  intro name id
  simp [idOf?, get?]

/-- An addition keeps an arena indexed. -/
theorem Indexed.add (indexed : arena.Indexed) {entry : α} {id : Id kind} {grown : Arena kind α}
    (added : arena.add? entry = some (id, grown)) : grown.Indexed := by
  have slots := get?_add added
  unfold add? at added
  split at added
  · cases added
  · rename_i free
    simp only [Option.some.injEq, Prod.mk.injEq] at added
    obtain ⟨rfl, rfl⟩ := added
    have unused : arena.get? (⟨arena.slots.length⟩ : Id kind) = none := by simp [get?]
    have unnamed : arena.index.get? (Named.name entry) = none := by
      simpa [Table.contains] using free
    intro name other
    have looked : arena.index.get? name = some other ↔
        ∃ held, arena.get? other = some held ∧ Named.name held = name := indexed name other
    rw [slots other, idOf?, note, Table.get?_insert]
    simp only [Std.LawfulEqOrd.compare_eq_iff_eq]
    by_cases fresh : other = ⟨arena.slots.length⟩
    · by_cases same : name = Named.name entry
      · simp [fresh, same]
      · rw [fresh, unused] at looked
        simp [fresh, same, looked, eq_comm]
    · by_cases same : name = Named.name entry
      · rw [same, unnamed] at looked
        simp [fresh, same, Ne.symm fresh, ← looked]
      · simp [fresh, same, looked]

/-- A change that leaves names alone keeps an arena indexed. -/
theorem Indexed.update (indexed : arena.Indexed) {id : Id kind} {change : α → α}
    {changed : Arena kind α} (updated : arena.update? id change = some changed)
    (kept : ∀ entry, Named.name (change entry) = Named.name entry) : changed.Indexed := by
  have slots := get?_update updated
  obtain ⟨entry, found, rfl⟩ := Option.map_eq_some_iff.mp updated
  intro name other
  refine (indexed name other).trans ?_
  rw [slots other]
  by_cases same : other = id
  · simp [same, found, kept]
  · simp [same]

/-- A removal keeps an arena indexed. -/
theorem Indexed.remove (indexed : arena.Indexed) {id : Id kind} {entry : α}
    {left : Arena kind α} (removed : arena.remove? id = some (entry, left)) : left.Indexed := by
  have slots := get?_remove removed
  obtain ⟨held, found, pair⟩ := Option.map_eq_some_iff.mp removed
  cases pair
  have own : arena.index.get? (Named.name entry) = some id :=
    (indexed _ id).mpr ⟨entry, found, rfl⟩
  intro name other
  have looked : arena.index.get? name = some other ↔
      ∃ held, arena.get? other = some held ∧ Named.name held = name := indexed name other
  rw [slots other, idOf?, note, Table.get?_erase]
  simp only [Std.LawfulEqOrd.compare_eq_iff_eq]
  by_cases gone : other = id
  · by_cases same : name = Named.name entry
    · simp [gone, same]
    · rw [gone, found] at looked
      simp [gone, same, looked, eq_comm]
  · by_cases same : name = Named.name entry
    · rw [same, own] at looked
      simp [gone, same, Ne.symm gone, ← looked]
    · simp [gone, same, looked]

/-! ## Numbers -/

/-- The ids of the entries, in slot order. -/
def ids (arena : Arena kind α) : List (Id kind) := arena.entries.map (·.1)

omit [Named α] in
/-- The ids of an arena are those at which it finds entries. -/
theorem mem_ids {id : Id kind} : id ∈ arena.ids ↔ (arena.get? id).isSome = true := by
  rw [ids, List.mem_map, Option.isSome_iff_exists]
  constructor
  · rintro ⟨⟨_, entry⟩, listed, rfl⟩
    exact ⟨entry, mem_entries.mp listed⟩
  · rintro ⟨entry, found⟩
    exact ⟨(id, entry), mem_entries.mpr found, rfl⟩

omit [Named α] in
/-- No id is listed twice. -/
theorem nodup_ids (arena : Arena kind α) : arena.ids.Nodup := by
  rw [ids, entries_eq, List.map_filterMap]
  refine List.Nodup.filterMap (fun slot other id one two => ?_) List.nodup_range
  simp only [Option.map_map, Option.mem_def, Option.map_eq_some_iff, Function.comp_apply] at one two
  obtain ⟨_, _, rfl⟩ := one
  obtain ⟨_, _, same⟩ := two
  exact (Id.mk.inj same).symm

/-- In an indexed arena there are as many names as entries. -/
theorem Indexed.count_eq (indexed : arena.Indexed) : arena.count = arena.ids.length := by
  have named (name : String) (id : Id kind) :
      (name, id) ∈ arena.index.entries ↔ arena.idOf? name = some id := Table.mem_entries
  have distinct : (arena.index.entries.map (·.2)).Nodup := by
    refine List.Nodup.map_on ?_ (List.Nodup.of_map _ arena.index.nodup_keys)
    rintro ⟨name, id⟩ listed ⟨other, _⟩ listedOther rfl
    obtain ⟨entry, found, isName⟩ := (indexed name id).mp ((named name id).mp listed)
    obtain ⟨same, foundSame, isOther⟩ := (indexed other id).mp ((named other id).mp listedOther)
    rw [found] at foundSame
    cases foundSame
    rw [← isName, isOther]
  have members (id : Id kind) : id ∈ arena.index.entries.map (·.2) ↔ id ∈ arena.ids := by
    rw [mem_ids, Option.isSome_iff_exists, List.mem_map]
    constructor
    · rintro ⟨⟨name, _⟩, listed, rfl⟩
      obtain ⟨entry, found, _⟩ := (indexed name _).mp ((named name _).mp listed)
      exact ⟨entry, found⟩
    · rintro ⟨entry, found⟩
      exact ⟨(Named.name entry, id), (named _ _).mpr ((indexed _ _).mpr ⟨entry, found, rfl⟩), rfl⟩
  have same := (List.perm_ext_iff_of_nodup distinct arena.nodup_ids).mpr members
  rw [← same.length_eq, List.length_map]
  rfl

/-- A set of entries is smaller than the number of names when an entry is missing in it. -/
theorem Indexed.size_lt_count_iff (indexed : arena.Indexed) {live : OrderedSet (Id kind)}
    (present : ∀ id ∈ live.keys, (arena.get? id).isSome = true) :
    live.size < arena.count ↔ ∃ id, (arena.get? id).isSome = true ∧ id ∉ live.keys := by
  have size : live.size = live.keys.length := by rw [Table.keys, List.length_map, Table.size]
  have inside : live.keys ⊆ arena.ids := fun id listed => mem_ids.mpr (present id listed)
  rw [indexed.count_eq, size]
  constructor
  · intro fewer
    by_contra none
    have all : arena.ids ⊆ live.keys := by
      intro id listed
      by_contra missing
      exact none ⟨id, mem_ids.mp listed, missing⟩
    have counted := (List.subperm_of_subset arena.nodup_ids all).length_le
    omega
  · rintro ⟨id, found, missing⟩
    have larger : (id :: live.keys).Nodup := List.nodup_cons.mpr ⟨missing, live.nodup_keys⟩
    have counted := (List.subperm_of_subset larger
      (List.cons_subset.mpr ⟨mem_ids.mpr found, inside⟩)).length_le
    rwa [List.length_cons] at counted

end Arena

/-- An operation that does not rename a function. -/
def Operation.KeepsNames : Operation → Prop
  | .update _ change => ∀ function, (change function).name = function.name
  | .addFunction _ | .addGlobal _ | .removeFunction _ | .removeGlobal _ => True

namespace Program

/-- The names of a program stand for its functions and globals. -/
structure Indexed (program : Program) : Prop where
  /-- The names of the functions. -/
  functions : program.functions.Indexed
  /-- The names of the globals. -/
  globals : program.globals.Indexed

/-- An operation keeps the names of a program in step, if it does not rename a function. -/
theorem Indexed.perform {program : Program} (indexed : program.Indexed) {operation : Operation}
    (kept : operation.KeepsNames) : (program.perform operation).Indexed := by
  have ⟨functions, globals⟩ := indexed
  have performed := program.performs_perform operation
  generalize program.perform operation = next at performed ⊢
  cases performed with
  | refused => exact indexed
  | addFunction added => exact ⟨functions.add added, globals⟩
  | addGlobal added => exact ⟨functions, globals.add added⟩
  | update updated => exact ⟨functions.update updated kept, globals⟩
  | removeFunction removed => exact ⟨functions.remove removed, globals⟩
  | removeGlobal removed => exact ⟨functions, globals.remove removed⟩

/-- Whatever is added, changed without renaming, and removed, the names of a program stay in
step. -/
theorem Indexed.performAll {program : Program} (indexed : program.Indexed)
    {operations : List Operation} (kept : ∀ operation ∈ operations, operation.KeepsNames) :
    (program.performAll operations).Indexed := by
  induction operations generalizing program with
  | nil => exact indexed
  | cons operation rest ih =>
    have first := indexed.perform (kept operation List.mem_cons_self)
    exact ih first fun later listed => kept later (List.mem_cons_of_mem _ listed)

end Program

end Timebound
