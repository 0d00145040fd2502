import Timebound.Program.Id
import Timebound.Table

/-!
# Arenas of named entries

An arena holds the entries of one kind in slots that are never reused, an index
from names to slots, and, while it is open, a journal. The journal keeps for
every touched slot what it held when the journal was opened, so that closing it
tells how the arena looked before (`Arena.before?`); no operation changes what an
open journal says (`Arena.before?_add`, `before?_update`, `before?_remove`). The
index follows additions and removals; it does not follow a change of the name
inside an entry.
-/

namespace Timebound

/-- Entries that carry a name. -/
class Named (α : Type) where
  /-- The name of an entry. -/
  name : α → String

/-- What touched slots held before; `none` for slots that were empty or did not exist. -/
abbrev PreImages (kind : Kind) (α : Type) := Table (Id kind) (Option α)

/-- Entries of one kind with their name index and journal. -/
structure Arena (kind : Kind) (α : Type) where
  /-- One place per id ever given out; a removed entry leaves its place empty. -/
  slots : List (Option α) := []
  /-- The id that each taken name stands for. -/
  index : Table String (Id kind) := .empty
  /-- The first-touch record, while a journal is open. -/
  journal : Option (PreImages kind α) := none

namespace Arena

variable {kind : Kind} {α : Type}

instance : Inhabited (Arena kind α) := ⟨{}⟩

/-- The entry in a slot. -/
def get? (arena : Arena kind α) (id : Id kind) : Option α := arena.slots[id.slot]?.join

/-- The id a name stands for. -/
def idOf? (arena : Arena kind α) (name : String) : Option (Id kind) := arena.index.get? name

/-- The entries present, in slot order. -/
def entries (arena : Arena kind α) : List (Id kind × α) :=
  arena.slots.zipIdx.filterMap fun place => place.1.map fun entry => (⟨place.2⟩, entry)

/-- The number of names taken. -/
def count (arena : Arena kind α) : Nat := arena.index.size

/-- The number of slots ever used; all ids given out are below it. -/
def slotCount (arena : Arena kind α) : Nat := arena.slots.length

/-- Note what a slot holds now, unless it was noted before or no journal is open. -/
def note (arena : Arena kind α) (id : Id kind) (held : Option α) : Arena kind α :=
  { arena with journal := arena.journal.map (·.insertIfNew id held) }

/-- Put an entry into a fresh slot. Refused when its name is taken. -/
def add? [Named α] (arena : Arena kind α) (entry : α) : Option (Id kind × Arena kind α) :=
  if arena.index.contains (Named.name entry) then none
  else
    let id : Id kind := ⟨arena.slots.length⟩
    some (id, note
      { arena with
        slots := arena.slots ++ [some entry]
        index := arena.index.insert (Named.name entry) id } id none)

/-- Change the entry of a slot in place. Refused when the slot is empty. -/
def update? (arena : Arena kind α) (id : Id kind) (change : α → α) : Option (Arena kind α) :=
  (arena.get? id).map fun entry =>
    { arena.note id (some entry) with slots := arena.slots.set id.slot (some (change entry)) }

/-- Take an entry out of its slot and free its name. Refused when the slot is empty. -/
def remove? [Named α] (arena : Arena kind α) (id : Id kind) : Option (α × Arena kind α) :=
  (arena.get? id).map fun entry =>
    (entry, { arena.note id (some entry) with
      slots := arena.slots.set id.slot none
      index := arena.index.erase (Named.name entry) })

/-- Start a new journal, dropping an open one. -/
def openJournal (arena : Arena kind α) : Arena kind α := { arena with journal := some .empty }

/-- Stop journaling. -/
def closeJournal (arena : Arena kind α) : Arena kind α := { arena with journal := none }

/-- What the journal holds; nothing when none is open. -/
def preImages (arena : Arena kind α) : PreImages kind α := arena.journal.getD .empty

/-- The entry of a slot as recorded pre-images say it was. -/
def before? (arena : Arena kind α) (pre : PreImages kind α) (id : Id kind) : Option α :=
  (pre.get? id).getD (arena.get? id)

/-- Whether two arenas have equal slots; names and journals do not count. -/
def sameSlots [DecidableEq α] (left right : Arena kind α) : Bool := left.slots == right.slots

/-- Noting a slot changes no entry. -/
@[simp] theorem get?_note (arena : Arena kind α) (id other : Id kind) (held : Option α) :
    (arena.note id held).get? other = arena.get? other := rfl

/-- Opening a journal changes no entry. -/
@[simp] theorem get?_openJournal (arena : Arena kind α) (id : Id kind) :
    arena.openJournal.get? id = arena.get? id := rfl

/-- Closing a journal changes no entry. -/
@[simp] theorem get?_closeJournal (arena : Arena kind α) (id : Id kind) :
    arena.closeJournal.get? id = arena.get? id := rfl

/-- Only existing slots hold entries. -/
theorem slot_lt_of_get? {arena : Arena kind α} {id : Id kind} {entry : α}
    (found : arena.get? id = some entry) : id.slot < arena.slotCount := by
  unfold get? at found
  cases place : arena.slots[id.slot]? with
  | none => simp [place] at found
  | some held => exact (List.getElem?_eq_some_iff.mp place).1

/-- The entries listed are those found by lookup. -/
theorem mem_entries {arena : Arena kind α} {id : Id kind} {entry : α} :
    (id, entry) ∈ arena.entries ↔ arena.get? id = some entry := by
  unfold entries get?
  rw [List.mem_filterMap]
  constructor
  · rintro ⟨⟨held, slot⟩, listed, made⟩
    rw [List.mem_zipIdx_iff_getElem?] at listed
    cases held with
    | none => simp at made
    | some found =>
      simp only [Option.map_some, Option.some.injEq, Prod.mk.injEq] at made
      obtain ⟨rfl, rfl⟩ := made
      simp_all
  · intro found
    cases place : arena.slots[id.slot]? with
    | none => simp [place] at found
    | some held =>
      have inside : held = some entry := by simpa [place] using found
      exact ⟨(held, id.slot), List.mem_zipIdx_iff_getElem?.mpr place, by simp [inside]⟩

/-- The entries listed are those that lookups find, slot by slot. -/
theorem entries_eq (arena : Arena kind α) :
    arena.entries = (List.range arena.slotCount).filterMap fun slot =>
      (arena.get? ⟨slot⟩).map fun entry => (⟨slot⟩, entry) := by
  have places : arena.slots.zipIdx =
      (List.range arena.slotCount).map fun slot => (arena.get? ⟨slot⟩, slot) := by
    refine List.ext_getElem (by simp [slotCount]) fun slot inside _ => ?_
    have below : slot < arena.slots.length := by simpa using inside
    simp [get?, below]
  rw [entries, places, List.filterMap_map]
  rfl

/-- An update changes the entry of its own slot only. -/
theorem get?_update {arena changed : Arena kind α} {id : Id kind} {change : α → α}
    (h : arena.update? id change = some changed) (other : Id kind) :
    changed.get? other = if other = id then (arena.get? id).map change else arena.get? other := by
  obtain ⟨entry, found, rfl⟩ := Option.map_eq_some_iff.mp h
  have inside := slot_lt_of_get? found
  unfold slotCount at inside
  by_cases same : other = id
  · subst same
    rw [found]
    simp [get?, inside]
  · have apart : id.slot ≠ other.slot := fun eq => same (by cases other; cases id; simp_all)
    simp [get?, same, apart]

/-- An update keeps the slots. -/
theorem slotCount_update {arena changed : Arena kind α} {id : Id kind} {change : α → α}
    (h : arena.update? id change = some changed) : changed.slotCount = arena.slotCount := by
  obtain ⟨entry, found, rfl⟩ := Option.map_eq_some_iff.mp h
  simp [slotCount]

/-- An update keeps a journal open. -/
theorem journal_update {arena changed : Arena kind α} {id : Id kind} {change : α → α}
    (h : arena.update? id change = some changed) :
    changed.journal.isSome = arena.journal.isSome := by
  obtain ⟨entry, found, rfl⟩ := Option.map_eq_some_iff.mp h
  simp [note]

/-- A removal empties its own slot only. -/
theorem get?_remove [Named α] {arena left : Arena kind α} {id : Id kind} {entry : α}
    (h : arena.remove? id = some (entry, left)) (other : Id kind) :
    left.get? other = if other = id then none else arena.get? other := by
  obtain ⟨held, found, pair⟩ := Option.map_eq_some_iff.mp h
  cases pair
  have inside := slot_lt_of_get? found
  unfold slotCount at inside
  by_cases same : other = id
  · subst same
    simp [get?, inside]
  · have apart : id.slot ≠ other.slot := fun eq => same (by cases other; cases id; simp_all)
    simp [get?, same, apart]

/-- A removal keeps the slots. -/
theorem slotCount_remove [Named α] {arena left : Arena kind α} {id : Id kind} {entry : α}
    (h : arena.remove? id = some (entry, left)) : left.slotCount = arena.slotCount := by
  obtain ⟨held, found, pair⟩ := Option.map_eq_some_iff.mp h
  cases pair
  simp [slotCount]

/-- A removal keeps a journal open. -/
theorem journal_remove [Named α] {arena left : Arena kind α} {id : Id kind} {entry : α}
    (h : arena.remove? id = some (entry, left)) :
    left.journal.isSome = arena.journal.isSome := by
  obtain ⟨held, found, pair⟩ := Option.map_eq_some_iff.mp h
  cases pair
  simp [note]

/-- An addition adds one slot and keeps a journal open. -/
theorem slotCount_add [Named α] {arena grown : Arena kind α} {entry : α} {id : Id kind}
    (h : arena.add? entry = some (id, grown)) :
    grown.slotCount = arena.slotCount + 1 ∧ grown.journal.isSome = arena.journal.isSome := by
  unfold add? at h
  split at h
  · simp at h
  · simp only [Option.some.injEq, Prod.mk.injEq] at h
    obtain ⟨rfl, rfl⟩ := h
    simp [slotCount, note]

/-- An addition fills the first unused slot and nothing else. -/
theorem get?_add [Named α] {arena grown : Arena kind α} {entry : α} {id : Id kind}
    (h : arena.add? entry = some (id, grown)) (other : Id kind) :
    grown.get? other = if other = id then some entry else arena.get? other := by
  unfold add? at h
  split at h
  · simp at h
  · simp only [Option.some.injEq, Prod.mk.injEq] at h
    obtain ⟨rfl, rfl⟩ := h
    by_cases same : other.slot = arena.slots.length
    · have eq : other = ⟨arena.slots.length⟩ := by cases other; simp_all
      rw [eq, get?_note]
      simp [get?]
    · have apart : other ≠ ⟨arena.slots.length⟩ := fun eq => same (by simp [eq])
      simp only [apart, if_false, get?_note]
      unfold get?
      by_cases below : other.slot < arena.slots.length
      · rw [List.getElem?_append_left below]
      · rw [List.getElem?_eq_none (by simp; omega), List.getElem?_eq_none (by omega)]

/-! ## What the journal says -/

/-- Noting what a slot holds does not change what the journal says it held. -/
theorem before?_note {arena : Arena kind α} (recording : arena.journal.isSome)
    (id other : Id kind) :
    (arena.note id (arena.get? id)).before? (arena.note id (arena.get? id)).preImages other =
      arena.before? arena.preImages other := by
  obtain ⟨pre, opened⟩ := Option.isSome_iff_exists.mp recording
  unfold before? preImages
  rw [get?_note]
  simp only [note, opened, Option.map_some, Option.getD_some, Table.get?_insertIfNew]
  by_cases same : other = id
  · subst same
    cases pre.get? other <;> simp
  · simp [same]

/-- What the journal says depends on a slot only as long as it has not been noted. -/
theorem before?_congr {arena changed : Arena kind α} {pre : PreImages kind α} {id : Id kind}
    (noted : (pre.get? id).isSome) (elsewhere : ∀ other, other ≠ id →
      changed.get? other = arena.get? other) (other : Id kind) :
    changed.before? pre other = arena.before? pre other := by
  unfold before?
  by_cases same : other = id
  · obtain ⟨held, found⟩ := Option.isSome_iff_exists.mp noted
    simp [same, found]
  · rw [elsewhere other same]

/-- A noted slot is in the journal. -/
theorem preImages_note {arena : Arena kind α} (recording : arena.journal.isSome) (id : Id kind)
    (held : Option α) : ((arena.note id held).preImages.get? id).isSome := by
  obtain ⟨pre, opened⟩ := Option.isSome_iff_exists.mp recording
  unfold preImages
  simp only [note, opened, Option.map_some, Option.getD_some, Table.get?_insertIfNew]
  cases pre.get? id <;> simp

/-- While a journal is open, an update adds its own slot to the journal. -/
theorem contains_preImages_update {arena changed : Arena kind α} (recording : arena.journal.isSome)
    {id : Id kind} {change : α → α} (h : arena.update? id change = some changed)
    (other : Id kind) :
    changed.preImages.contains other = true ↔
      other = id ∨ arena.preImages.contains other = true := by
  obtain ⟨entry, found, rfl⟩ := Option.map_eq_some_iff.mp h
  obtain ⟨pre, opened⟩ := Option.isSome_iff_exists.mp recording
  unfold preImages Table.contains
  simp only [note, opened, Option.map_some, Option.getD_some, Table.get?_insertIfNew]
  by_cases same : other = id
  · simp [same]
  · simp [same]

/-- While a journal is open, an update does not change what the journal says. -/
theorem before?_update {arena changed : Arena kind α} (recording : arena.journal.isSome)
    {id : Id kind} {change : α → α} (h : arena.update? id change = some changed)
    (other : Id kind) :
    changed.before? changed.preImages other = arena.before? arena.preImages other := by
  have slots := get?_update h
  obtain ⟨entry, found, rfl⟩ := Option.map_eq_some_iff.mp h
  rw [← before?_note recording id other, found]
  exact before?_congr (preImages_note recording id (some entry))
    (fun _ apart => by rw [slots, if_neg apart, get?_note]) other

/-- While a journal is open, a removal does not change what the journal says. -/
theorem before?_remove [Named α] {arena left : Arena kind α} (recording : arena.journal.isSome)
    {id : Id kind} {entry : α} (h : arena.remove? id = some (entry, left)) (other : Id kind) :
    left.before? left.preImages other = arena.before? arena.preImages other := by
  have slots := get?_remove h
  obtain ⟨held, found, pair⟩ := Option.map_eq_some_iff.mp h
  cases pair
  rw [← before?_note recording id other, found]
  exact before?_congr (preImages_note recording id (some entry))
    (fun _ apart => by rw [slots, if_neg apart, get?_note]) other

/-- While a journal is open, an addition does not change what the journal says. -/
theorem before?_add [Named α] {arena grown : Arena kind α} (recording : arena.journal.isSome)
    {entry : α} {id : Id kind} (h : arena.add? entry = some (id, grown)) (other : Id kind) :
    grown.before? grown.preImages other = arena.before? arena.preImages other := by
  have slots := get?_add h
  unfold add? at h
  split at h
  · simp at h
  · simp only [Option.some.injEq, Prod.mk.injEq] at h
    obtain ⟨rfl, rfl⟩ := h
    have unused : arena.get? (⟨arena.slots.length⟩ : Id kind) = none := by simp [get?]
    rw [← before?_note recording ⟨arena.slots.length⟩ other, unused]
    exact before?_congr (preImages_note recording _ none)
      (fun _ apart => by rw [slots, if_neg apart, get?_note]) other

end Arena

end Timebound
