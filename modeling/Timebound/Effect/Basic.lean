import Timebound.Program.Stmt
import Timebound.Table

/-!
# Effects

The observable actions of a body: writes and stores to globals, emissions, calls
that are kept as calls, loops and branches, and, between them, sets of reads of
globals. Values and local variables do not appear.
-/

namespace Timebound

/-- A read of a global. -/
inductive Read where
  /-- A read of a scalar. -/
  | scalar (id : GlobalId)
  /-- A read of an element; the index is known when it is a literal. -/
  | element (id : GlobalId) (index : Option Int)
  deriving DecidableEq

namespace Read

/-- The global that is read. -/
def global : Read → GlobalId
  | scalar id | element id _ => id

/-- Whether an element is read. -/
def isElement : Read → Bool
  | scalar _ => false
  | element _ _ => true

/-- The known index of an element read. -/
def index? : Read → Option Int
  | scalar _ => none
  | element _ index => index

/-- Reads compare by scalar before element, then by global, then by index with
unknown ones first. -/
def order : Read → Read → Ordering :=
  compareLex (compareOn isElement) (compareLex (compareOn global) (compareOn index?))

instance : Ord Read := ⟨order⟩

instance : Std.TransOrd Read := inferInstanceAs (Std.TransCmp
  (compareLex (compareOn isElement) (compareLex (compareOn global) (compareOn index?))))

instance : Std.LawfulEqOrd Read where
  compare_self {a} := Std.ReflCmp.compare_self
  eq_of_compare {a b} same := by
    have parts : a.isElement = b.isElement ∧ a.global = b.global ∧ a.index? = b.index? := by
      have whole : (compare a.isElement b.isElement).then
          ((compare a.global b.global).then (compare a.index? b.index?)) = .eq := same
      simp only [Ordering.then_eq_eq] at whole
      exact ⟨Std.LawfulEqOrd.eq_of_compare whole.1, Std.LawfulEqOrd.eq_of_compare whole.2.1,
        Std.LawfulEqOrd.eq_of_compare whole.2.2⟩
    cases a <;> cases b <;> simp_all [isElement, global, index?]

end Read

/-- An observable action. -/
inductive Effect where
  /-- The reads since the action before, in order. -/
  | reads (reads : List Read)
  /-- A write of a scalar global. -/
  | write (id : GlobalId)
  /-- A write of an element. -/
  | store (id : GlobalId)
  /-- A value sent to a channel. -/
  | emit (channel : Nat)
  /-- A call that is not replaced by the actions of its callee. -/
  | call (id : FunctionId)
  /-- A loop with the actions of its condition and body. -/
  | loop (bound : TripBound) (body : List Effect)
  /-- A branch on a condition without leading negations. -/
  | branch (whenTrue whenFalse : List Effect)

mutual

/-- Whether two actions are the same. -/
def Effect.same : Effect → Effect → Bool
  | .reads a, .reads b => a == b
  | .write a, .write b => a == b
  | .store a, .store b => a == b
  | .emit a, .emit b => a == b
  | .call a, .call b => a == b
  | .loop a s, .loop b t => a == b && Effects.same s t
  | .branch s t, .branch u v => Effects.same s u && Effects.same t v
  | _, _ => false

/-- Whether two lists of actions are the same. -/
def Effects.same : List Effect → List Effect → Bool
  | [], [] => true
  | a :: s, b :: t => a.same b && Effects.same s t
  | _, _ => false

end

mutual

theorem Effect.same_iff : ∀ a b : Effect, a.same b = true ↔ a = b
  | .reads _, b => by cases b <;> simp [Effect.same]
  | .write _, b => by cases b <;> simp [Effect.same]
  | .store _, b => by cases b <;> simp [Effect.same]
  | .emit _, b => by cases b <;> simp [Effect.same]
  | .call _, b => by cases b <;> simp [Effect.same]
  | .loop _ s, b => by cases b <;> simp [Effect.same, Effects.same_iff s]
  | .branch s t, b => by cases b <;> simp [Effect.same, Effects.same_iff s, Effects.same_iff t]

theorem Effects.same_iff : ∀ s t : List Effect, Effects.same s t = true ↔ s = t
  | [], t => by cases t <;> simp [Effects.same]
  | a :: s, t => by cases t <;> simp [Effects.same, Effect.same_iff a, Effects.same_iff s]

end

instance : DecidableEq Effect := fun a b => decidable_of_iff _ (Effect.same_iff a b)

end Timebound
