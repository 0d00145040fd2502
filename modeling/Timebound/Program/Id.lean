/-!
# Stable numbers of program entries

Functions and globals are referred to by the number of the slot they were put
in. The kind of entry is part of the type of the number, so a function is never
looked up among the globals. Numbers of one kind compare as their slots do.
-/

namespace Timebound

/-- The two kinds of entries of a program. -/
inductive Kind where
  | function
  | global
  deriving DecidableEq

/-- The slot number of an entry of one kind. -/
structure Id (kind : Kind) where
  /-- The position of the slot, counted from zero. -/
  slot : Nat
  deriving DecidableEq

/-- The number of a function. -/
abbrev FunctionId := Id .function

/-- The number of a global. -/
abbrev GlobalId := Id .global

namespace Kind

/-- The mark before the slot number in the text of an id. -/
def mark : Kind → String
  | function => "fn"
  | global => "global"

/-- The word for an entry of the kind in messages. -/
def word : Kind → String
  | function => "function"
  | global => "global"

end Kind

namespace Id

variable {kind : Kind}

instance : Inhabited (Id kind) := ⟨⟨0⟩⟩

instance : Ord (Id kind) := ⟨fun a b => compare a.slot b.slot⟩

/-- Ids compare as their slots do. -/
theorem compare_def (a b : Id kind) : compare a b = compare a.slot b.slot := rfl

instance : Std.TransOrd (Id kind) where
  eq_swap {a b} :=
    (Std.OrientedOrd.eq_swap : compare a.slot b.slot = (compare b.slot a.slot).swap)
  isLE_trans {a _ c} hab hbc :=
    (Std.TransOrd.isLE_trans hab hbc : (compare a.slot c.slot).isLE)

instance : Std.LawfulEqOrd (Id kind) where
  compare_self {a} := (Std.ReflOrd.compare_self : compare a.slot a.slot = .eq)
  eq_of_compare := fun {a b} same => by
    have slots : a.slot = b.slot := Std.LawfulEqOrd.eq_of_compare same
    cases a
    cases b
    exact congrArg Id.mk slots

/-- The text of an id, used where the entry has no name. -/
def text (id : Id kind) : String := kind.mark ++ "#" ++ toString id.slot

end Id

end Timebound
