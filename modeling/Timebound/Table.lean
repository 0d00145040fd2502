/-!
# Tables with ascending keys

A table is a finite map stored as an association list whose keys strictly
ascend. The order is part of the type, so reading a table out gives its keys
in order, and two tables that answer every lookup alike are the same value
(`Table.ext_get?`). All updates go through `Table.alter`, whose effect on
lookups is `Table.get?_alter`. Tables here are small, and lookup time is not a
concern.
-/

namespace Timebound

/-- A finite map with strictly ascending keys. -/
structure Table (κ ν : Type) [Ord κ] where
  /-- The bindings, smallest key first. -/
  entries : List (κ × ν)
  /-- Every key is smaller than all keys after it. -/
  ascending : entries.Pairwise (fun a b => compare a.1 b.1 = .lt)
  deriving DecidableEq

/-- A finite set of keys, listed in ascending order. -/
abbrev OrderedSet (κ : Type) [Ord κ] := Table κ Unit

namespace Table

variable {κ ν : Type} [Ord κ]

/-! ## Bindings as a plain list -/

/-- The value bound to a key in a list of bindings. -/
def lookupEntry (key : κ) : List (κ × ν) → Option ν
  | [] => none
  | (k, v) :: rest => if compare key k = .eq then some v else lookupEntry key rest

/-- Replace the binding of a key by what `change` makes of it, keeping the order. -/
def alterEntries (key : κ) (change : Option ν → Option ν) : List (κ × ν) → List (κ × ν)
  | [] => match change none with
    | none => []
    | some v => [(key, v)]
  | (k, v) :: rest => match compare key k with
    | .lt => match change none with
      | none => (k, v) :: rest
      | some w => (key, w) :: (k, v) :: rest
    | .eq => match change (some v) with
      | none => rest
      | some w => (key, w) :: rest
    | .gt => (k, v) :: alterEntries key change rest

/-- A changed list binds only old keys and the changed one. -/
theorem mem_alterEntries {key : κ} {change : Option ν → Option ν} {entry : κ × ν} :
    ∀ {entries : List (κ × ν)}, entry ∈ alterEntries key change entries →
      entry ∈ entries ∨ entry.1 = key
  | [], h => by
    unfold alterEntries at h
    split at h <;> simp_all
  | (k, v) :: rest, h => by
    unfold alterEntries at h
    split at h
    · split at h
      · exact .inl h
      · rcases List.mem_cons.mp h with rfl | old
        · exact .inr rfl
        · exact .inl old
    · split at h
      · exact .inl (List.mem_cons_of_mem _ h)
      · rcases List.mem_cons.mp h with rfl | old
        · exact .inr rfl
        · exact .inl (List.mem_cons_of_mem _ old)
    · rcases List.mem_cons.mp h with rfl | old
      · exact .inl List.mem_cons_self
      · exact (mem_alterEntries old).imp_left (List.mem_cons_of_mem _)

variable [Std.TransOrd κ] [Std.LawfulEqOrd κ]

/-- Changing one binding keeps the keys ascending. -/
theorem pairwise_alterEntries (key : κ) (change : Option ν → Option ν) :
    ∀ {entries : List (κ × ν)}, entries.Pairwise (fun a b => compare a.1 b.1 = .lt) →
      (alterEntries key change entries).Pairwise (fun a b => compare a.1 b.1 = .lt)
  | [], _ => by
    unfold alterEntries
    split <;> simp
  | (k, v) :: rest, h => by
    obtain ⟨head, tail⟩ := List.pairwise_cons.mp h
    unfold alterEntries
    split
    · rename_i order
      split
      · exact h
      · refine List.pairwise_cons.mpr ⟨fun entry mem => ?_, h⟩
        rcases List.mem_cons.mp mem with rfl | mem
        · exact order
        · exact Std.TransCmp.lt_trans order (head entry mem)
    · rename_i order
      have same : key = k := Std.LawfulEqOrd.eq_of_compare order
      split
      · exact tail
      · exact List.pairwise_cons.mpr ⟨fun entry mem => same ▸ head entry mem, tail⟩
    · rename_i order
      refine List.pairwise_cons.mpr ⟨fun entry mem => ?_, pairwise_alterEntries key change tail⟩
      rcases mem_alterEntries mem with mem | same
      · exact head entry mem
      · rw [same]
        exact Std.OrientedCmp.lt_of_gt order

omit [Std.TransOrd κ] [Std.LawfulEqOrd κ] in
/-- A key below all listed keys is not bound. -/
theorem lookupEntry_eq_none {key : κ} : ∀ {entries : List (κ × ν)},
    (∀ entry ∈ entries, compare key entry.1 = .lt) → lookupEntry key entries = none
  | [], _ => rfl
  | (k, v) :: rest, h => by
    have first : compare key k = .lt := h (k, v) (by simp)
    simp only [lookupEntry, first, reduceCtorEq, if_false]
    exact lookupEntry_eq_none fun entry mem => h entry (by simp [mem])

/-- What a lookup finds in a changed list. -/
theorem lookupEntry_alterEntries (key : κ) (change : Option ν → Option ν) (other : κ) :
    ∀ {entries : List (κ × ν)}, entries.Pairwise (fun a b => compare a.1 b.1 = .lt) →
      lookupEntry other (alterEntries key change entries) =
        if compare other key = .eq then change (lookupEntry key entries)
        else lookupEntry other entries
  | [], _ => by
    unfold alterEntries
    split <;> rename_i found <;> simp [lookupEntry, found]
  | (k, v) :: rest, h => by
    obtain ⟨head, tail⟩ := List.pairwise_cons.mp h
    have absent {low : κ} (below : compare low k = .lt) : lookupEntry low rest = none :=
      lookupEntry_eq_none fun entry mem => Std.TransCmp.lt_trans below (head entry mem)
    unfold alterEntries
    split
    · rename_i order
      split <;> rename_i found
      · by_cases same : compare other key = .eq
        · have same' : other = key := Std.LawfulEqOrd.eq_of_compare same
          subst same'
          simp [lookupEntry, order, absent order, found]
        · simp [same]
      · by_cases same : compare other key = .eq
        · have same' : other = key := Std.LawfulEqOrd.eq_of_compare same
          subst same'
          simp [lookupEntry, order, absent order, found]
        · simp [lookupEntry, same]
    · rename_i order
      have same : key = k := Std.LawfulEqOrd.eq_of_compare order
      subst same
      have missing : lookupEntry key rest = none :=
        lookupEntry_eq_none fun entry mem => head entry mem
      split <;> rename_i found
      · by_cases same : compare other key = .eq
        · have same' : other = key := Std.LawfulEqOrd.eq_of_compare same
          subst same'
          simp [lookupEntry, missing, found]
        · simp [lookupEntry, same]
      · by_cases same : compare other key = .eq
        · simp [lookupEntry, same, found]
        · simp [lookupEntry, same]
    · rename_i order
      have step := lookupEntry_alterEntries key change other tail
      by_cases same : compare other k = .eq
      · have same' : other = k := Std.LawfulEqOrd.eq_of_compare same
        subst same'
        have apart : ¬ compare other key = .eq := fun eq => by
          rw [Std.LawfulEqOrd.eq_of_compare eq] at order
          simp at order
        simp [lookupEntry, apart]
      · by_cases hit : compare other key = .eq
        · have hit' : other = key := Std.LawfulEqOrd.eq_of_compare hit
          subst hit'
          simp_all [lookupEntry]
        · simp_all [lookupEntry]

/-- Ascending lists that answer every lookup alike are equal. -/
theorem entries_ext : ∀ {left right : List (κ × ν)},
    left.Pairwise (fun a b => compare a.1 b.1 = .lt) →
      right.Pairwise (fun a b => compare a.1 b.1 = .lt) →
        (∀ key, lookupEntry key left = lookupEntry key right) → left = right
  | [], [], _, _, _ => rfl
  | [], (k, v) :: rest, _, _, same => by
    have at_k := same k
    simp [lookupEntry] at at_k
  | (k, v) :: rest, [], _, _, same => by
    have at_k := same k
    simp [lookupEntry] at at_k
  | (k, v) :: rest, (k', v') :: rest', hl, hr, same => by
    obtain ⟨headL, tailL⟩ := List.pairwise_cons.mp hl
    obtain ⟨headR, tailR⟩ := List.pairwise_cons.mp hr
    have keys : compare k k' = .eq := by
      cases order : compare k k' with
      | eq => rfl
      | lt =>
        have missing : lookupEntry k rest' = none := lookupEntry_eq_none fun entry mem =>
          Std.TransCmp.lt_trans order (headR entry mem)
        have at_k := same k
        simp [lookupEntry, order, missing] at at_k
      | gt =>
        have order' : compare k' k = .lt := Std.OrientedCmp.lt_of_gt order
        have missing : lookupEntry k' rest = none := lookupEntry_eq_none fun entry mem =>
          Std.TransCmp.lt_trans order' (headL entry mem)
        have at_k := same k'
        simp [lookupEntry, order', missing] at at_k
    have keys' : k = k' := Std.LawfulEqOrd.eq_of_compare keys
    subst keys'
    have values : v = v' := by
      have at_k := same k
      simpa [lookupEntry] using at_k
    subst values
    have rests : rest = rest' := entries_ext tailL tailR fun key => by
      by_cases hit : compare key k = .eq
      · have hit' : key = k := Std.LawfulEqOrd.eq_of_compare hit
        subst hit'
        rw [lookupEntry_eq_none fun entry mem => headL entry mem,
          lookupEntry_eq_none fun entry mem => headR entry mem]
      · simpa [lookupEntry, hit] using same key
    rw [rests]

/-! ## Tables -/

/-- The table without bindings. -/
def empty : Table κ ν := ⟨[], .nil⟩

instance : EmptyCollection (Table κ ν) := ⟨empty⟩

instance : Inhabited (Table κ ν) := ⟨empty⟩

/-- The value bound to a key. -/
def get? (table : Table κ ν) (key : κ) : Option ν := lookupEntry key table.entries

/-- Whether a key is bound. -/
def contains (table : Table κ ν) (key : κ) : Bool := (table.get? key).isSome

/-- The bound keys, smallest first. -/
def keys (table : Table κ ν) : List κ := table.entries.map (·.1)

/-- The number of bindings. -/
def size (table : Table κ ν) : Nat := table.entries.length

/-- Whether nothing is bound. -/
def isEmpty (table : Table κ ν) : Bool := table.entries.isEmpty

/-- Replace the binding of one key by what `change` makes of it. -/
def alter (table : Table κ ν) (key : κ) (change : Option ν → Option ν) : Table κ ν :=
  ⟨alterEntries key change table.entries, pairwise_alterEntries key change table.ascending⟩

/-- Bind a key, replacing an earlier value. -/
def insert (table : Table κ ν) (key : κ) (value : ν) : Table κ ν :=
  table.alter key fun _ => some value

/-- Bind a key unless it already has a value. -/
def insertIfNew (table : Table κ ν) (key : κ) (value : ν) : Table κ ν :=
  table.alter key fun found => some (found.getD value)

/-- Forget the binding of a key. -/
def erase (table : Table κ ν) (key : κ) : Table κ ν := table.alter key fun _ => none

/-- The table of a list of bindings, in which a later one wins. -/
def ofList (bindings : List (κ × ν)) : Table κ ν :=
  bindings.foldl (fun table binding => table.insert binding.1 binding.2) empty

/-- Tables that answer every lookup alike are equal. -/
theorem ext_get? {left right : Table κ ν} (same : ∀ key, left.get? key = right.get? key) :
    left = right := by
  obtain ⟨left, hl⟩ := left
  obtain ⟨right, hr⟩ := right
  congr
  exact entries_ext hl hr same

omit [Std.TransOrd κ] [Std.LawfulEqOrd κ] in
@[simp] theorem get?_empty (key : κ) : (empty : Table κ ν).get? key = none := rfl

/-- A lookup after a change of one binding. -/
theorem get?_alter (table : Table κ ν) (key : κ) (change : Option ν → Option ν) (other : κ) :
    (table.alter key change).get? other =
      if compare other key = .eq then change (table.get? key) else table.get? other :=
  lookupEntry_alterEntries key change other table.ascending

/-- A lookup after binding a key. -/
theorem get?_insert (table : Table κ ν) (key : κ) (value : ν) (other : κ) :
    (table.insert key value).get? other =
      if compare other key = .eq then some value else table.get? other :=
  get?_alter table key _ other

/-- A lookup after binding a key that may be bound already. -/
theorem get?_insertIfNew (table : Table κ ν) (key : κ) (value : ν) (other : κ) :
    (table.insertIfNew key value).get? other =
      if compare other key = .eq then some ((table.get? key).getD value) else table.get? other :=
  get?_alter table key _ other

/-- A lookup after forgetting a key. -/
theorem get?_erase (table : Table κ ν) (key other : κ) :
    (table.erase key).get? other =
      if compare other key = .eq then none else table.get? other :=
  get?_alter table key _ other

omit [Std.TransOrd κ] in
/-- The bound keys are those with a value. -/
theorem mem_keys {table : Table κ ν} {key : κ} : key ∈ table.keys ↔ (table.get? key).isSome := by
  unfold keys get?
  induction table.entries with
  | nil => simp [lookupEntry]
  | cons entry rest ih =>
    obtain ⟨k, v⟩ := entry
    by_cases hit : compare key k = .eq
    · have same : key = k := Std.LawfulEqOrd.eq_of_compare hit
      simp [lookupEntry, same]
    · have apart : key ≠ k := fun same => hit (by simp [same])
      simpa [lookupEntry, hit, apart] using ih

omit [Std.TransOrd κ] in
/-- The bindings listed are those found by lookup. -/
theorem mem_entries {table : Table κ ν} {key : κ} {value : ν} :
    (key, value) ∈ table.entries ↔ table.get? key = some value := by
  obtain ⟨entries, ascending⟩ := table
  unfold get?
  induction entries with
  | nil => simp [lookupEntry]
  | cons entry rest ih =>
    obtain ⟨k, v⟩ := entry
    have later := ih (List.Pairwise.tail ascending)
    by_cases hit : compare key k = .eq
    · have same : key = k := Std.LawfulEqOrd.eq_of_compare hit
      have absent : (key, value) ∉ rest := fun listed => by
        have lower := List.rel_of_pairwise_cons ascending listed
        rw [same, Std.LawfulEqOrd.compare_eq_iff_eq.mpr rfl] at lower
        cases lower
      simp [lookupEntry, same ▸ absent, same, eq_comm]
    · have apart : key ≠ k := fun same => hit (by simp [same])
      simpa [lookupEntry, hit, apart] using later

omit [Std.TransOrd κ] in
/-- No key is listed twice. -/
theorem nodup_keys (table : Table κ ν) : table.keys.Nodup := by
  unfold keys
  rw [List.Nodup, List.pairwise_map]
  refine table.ascending.imp fun {first second} lower same => ?_
  rw [same, Std.LawfulEqOrd.compare_eq_iff_eq.mpr rfl] at lower
  cases lower

end Table

namespace OrderedSet

variable {κ : Type} [Ord κ] [Std.TransOrd κ] [Std.LawfulEqOrd κ]

/-- Add one key to a set. -/
def add (set : OrderedSet κ) (key : κ) : OrderedSet κ := Table.insert set key ()

/-- Add every key of a list to a set. -/
def addAll (set : OrderedSet κ) (keys : List κ) : OrderedSet κ := keys.foldl add set

/-- The set of the keys of a list. -/
def ofList (keys : List κ) : OrderedSet κ := addAll Table.empty keys

/-- Adding keys adds these keys and nothing else. -/
theorem mem_keys_addAll {set : OrderedSet κ} {keys : List κ} {key : κ} :
    key ∈ (addAll set keys).keys ↔ key ∈ set.keys ∨ key ∈ keys := by
  unfold addAll
  induction keys generalizing set with
  | nil => simp
  | cons first rest ih =>
    have one : key ∈ (add set first).keys ↔ key ∈ set.keys ∨ key = first := by
      rw [Table.mem_keys, Table.mem_keys, add, Table.get?_insert]
      by_cases hit : compare key first = .eq
      · simp [Std.LawfulEqOrd.eq_of_compare hit]
      · have apart : key ≠ first := fun same => hit (by simp [same])
        simp [hit, apart]
    rw [List.foldl_cons, ih, one, List.mem_cons, or_assoc]

/-- The set of the keys of a list holds these keys. -/
theorem mem_keys_ofList {keys : List κ} {key : κ} : key ∈ (ofList keys).keys ↔ key ∈ keys := by
  rw [ofList, mem_keys_addAll, Table.mem_keys, Table.get?_empty]
  simp

omit [Std.TransOrd κ] in
/-- A set contains the keys it lists. -/
theorem contains_iff {set : OrderedSet κ} {key : κ} :
    Table.contains set key = true ↔ key ∈ set.keys := Table.mem_keys.symm

/-- Sets of the same keys are equal. -/
theorem ext_keys {left right : OrderedSet κ} (same : ∀ key, key ∈ left.keys ↔ key ∈ right.keys) :
    left = right := by
  refine Table.ext_get? fun key => ?_
  have held := same key
  rw [Table.mem_keys, Table.mem_keys] at held
  cases one : Table.get? left key <;> cases other : Table.get? right key <;> simp_all

end OrderedSet

end Timebound
