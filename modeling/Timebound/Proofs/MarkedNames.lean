import Mathlib.Logic.Function.Basic
import Timebound.Guided.Inlining
import Timebound.Guided.Unrolling

/-!
# Marked names

Expanding calls and unrolling loops put a mark in front of local names: two underscores,
a head, and a number. Heads may contain underscores and numbers themselves, so a marked
name need not tell where its head ends. Cutting names at their underscores shows what
can happen: names with marks of the same text have the same head and number, or one head
goes on like the other one followed by a number (`markOf_append_eq`).
-/

namespace Timebound

/-! ## Fields -/

/-- The texts between the underscores of a name. -/
def fields (name : String) : List (List Char) := name.toList.splitOn '_'

/-- An underscore ends a field. -/
theorem fields_join (first second : String) :
    fields (first ++ "_" ++ second) = fields first ++ fields second := by
  unfold fields
  rw [String.toList_append, String.toList_append, List.append_assoc]
  exact List.splitOnP_append_cons _ _ (by decide)

/-- A name is made of its fields. -/
theorem fields_injective : Function.Injective fields := by
  intro first second same
  have joined := congrArg ([('_' : Char)].intercalate) same
  unfold fields at joined
  rw [List.intercalate_splitOn, List.intercalate_splitOn] at joined
  exact String.toList_inj.mp joined

/-- A number is one field. -/
theorem fields_toString (number : Nat) : fields (toString number) = [Nat.toDigits 10 number] := by
  unfold fields
  rw [Nat.toString_eq_repr, Nat.toList_repr]
  refine List.splitOn_eq_singleton fun listed => ?_
  have digit := Nat.isDigit_of_mem_toDigits (by decide) (by decide) listed
  exact absurd digit (by decide)

/-- Whether a field is a number. -/
def isNumeral (field : List Char) : Bool := !field.isEmpty && field.all Char.isDigit

/-- Numbers are written as numbers. -/
theorem isNumeral_toDigits (number : Nat) : isNumeral (Nat.toDigits 10 number) = true := by
  unfold isNumeral
  rw [Bool.and_eq_true, Bool.not_eq_true', List.isEmpty_eq_false_iff, List.all_eq_true]
  exact ⟨Nat.toDigits_ne_nil, fun c listed =>
    Nat.isDigit_of_mem_toDigits (by decide) (by decide) listed⟩

/-! ## Marks -/

/-- The mark of a head and a number. -/
def markOf (head : String) (number : Nat) : String :=
  "__" ++ head ++ "_" ++ toString number ++ "_"

/-- An expansion marks names with the callee and the site. -/
theorem Inlinable.localName_eq (callee : Inlinable) (site : Nat) (name : String) :
    callee.localName site name = markOf callee.function.name site ++ name := rfl

/-- A copy marks names with the counter and the number of the copy. -/
theorem copyMark_eq (counter : Option String) (copy : Nat) :
    copyMark counter copy = markOf (counter.getD "loop") copy := rfl

/-- A name with the look of a marked one: it begins with two underscores. -/
def Minted (name : String) : Prop := "__".toList <+: name.toList

instance (name : String) : Decidable (Minted name) := inferInstanceAs (Decidable (_ <+: _))

/-- Marked names are minted. -/
theorem minted_markOf (head : String) (number : Nat) (name : String) :
    Minted (markOf head number ++ name) := by
  refine ⟨(head ++ "_" ++ toString number ++ "_" ++ name).toList, ?_⟩
  rw [← String.toList_append]
  simp only [markOf, String.append_assoc]

/-- The fields of a marked name: two empty ones, those of the head, the number, and those
of the name. -/
theorem fields_markOf (head : String) (number : Nat) (name : String) :
    fields (markOf head number ++ name) =
      [[], []] ++ (fields head ++ Nat.toDigits 10 number :: fields name) := by
  have parts : markOf head number ++ name =
      "" ++ "_" ++ ("" ++ "_" ++ (head ++ "_" ++ (toString number ++ "_" ++ name))) := by
    have opening : "__" = "_" ++ "_" := by decide
    simp only [markOf, opening, String.append_assoc, String.empty_append]
  have empty : fields "" = [[]] := by decide
  rw [parts, fields_join, fields_join, fields_join, fields_join, fields_toString, empty]
  rfl

/-- A name that goes on like a head followed by a number. -/
def Mimics (name head : String) : Prop :=
  ∃ number ∈ fields name, isNumeral number = true ∧ fields head ++ [number] <+: fields name

instance (name head : String) : Decidable (Mimics name head) :=
  inferInstanceAs (Decidable (∃ number ∈ fields name, _))

/-- Fields that go on with those of a head and a number mimic the head. -/
theorem mimics_of_append {name head : String} {number : Nat} {rest : List (List Char)}
    (goesOn : fields name = fields head ++ Nat.toDigits 10 number :: rest) : Mimics name head := by
  refine ⟨Nat.toDigits 10 number, ?_, isNumeral_toDigits number, rest, ?_⟩
  · rw [goesOn]
    simp
  · rw [goesOn, List.append_assoc]
    rfl

/-- When the fields of one head begin with those of another, equal marked names have the
same head and number, or the longer head mimics the shorter one. -/
theorem eq_or_mimics {head other : String} {number otherNumber : Nat}
    {more rest otherRest : List (List Char)} (longer : fields other = fields head ++ more)
    (same : Nat.toDigits 10 number :: rest = more ++ Nat.toDigits 10 otherNumber :: otherRest) :
    (head = other ∧ number = otherNumber) ∨ Mimics other head := by
  cases more with
  | nil =>
    obtain ⟨digits, _⟩ := List.cons.inj same
    rw [List.append_nil] at longer
    have numbers := congrArg (fun written => Nat.ofDigitChars 10 written 0) digits
    simp only [Nat.ofDigitChars_ten_toDigits] at numbers
    exact .inl ⟨(fields_injective longer).symm, numbers⟩
  | cons field more =>
    obtain ⟨digits, _⟩ := List.cons.inj same
    exact .inr (mimics_of_append (digits ▸ longer))

/-- Equal marked names have the same head and number, or the head of one mimics that of
the other. -/
theorem markOf_append_eq {head other : String} {number otherNumber : Nat} {name otherName : String}
    (same : markOf head number ++ name = markOf other otherNumber ++ otherName) :
    (head = other ∧ number = otherNumber) ∨ Mimics other head ∨ Mimics head other := by
  have cut := congrArg fields same
  rw [fields_markOf, fields_markOf, List.append_cancel_left_eq] at cut
  rcases List.append_eq_append_iff.mp cut with ⟨more, longer, rest⟩ | ⟨more, longer, rest⟩
  · exact (eq_or_mimics longer rest).imp_right .inl
  · rcases eq_or_mimics longer rest with ⟨heads, numbers⟩ | mimics
    · exact .inl ⟨heads.symm, numbers.symm⟩
    · exact .inr (.inr mimics)

/-! ## Heads that cannot be confused -/

/-- A head with an underscore after it begins with two underscores. -/
def Hidden (head : String) : Prop := [[], []] <+: fields head

instance (head : String) : Decidable (Hidden head) := inferInstanceAs (Decidable (_ <+: _))

/-- Minted names hide as heads. -/
theorem Minted.hidden {name : String} (minted : Minted name) : Hidden name := by
  obtain ⟨rest, begins⟩ := minted
  have parts : name = "" ++ "_" ++ ("" ++ "_" ++ String.ofList rest) := by
    refine String.toList_inj.mp ?_
    rw [← begins]
    simp
  have empty : fields "" = [[]] := by decide
  rw [parts, Hidden, fields_join, fields_join, empty]
  exact ⟨fields (String.ofList rest), rfl⟩

/-- Nothing hidden mimics a head in the open, nor the other way round. -/
theorem Hidden.not_mimics {name head : String} (hidden : Hidden name) (plain : ¬Hidden head) :
    ¬Mimics name head ∧ ¬Mimics head name := by
  obtain ⟨rest, begins⟩ := hidden
  constructor
  · rintro ⟨number, _, numeral, goesOn⟩
    rw [← begins] at goesOn
    -- the head has one field, which is empty, or two
    match parts : fields head with
    | [] =>
      rw [parts] at goesOn
      rw [(List.cons_prefix_cons.mp goesOn).1] at numeral
      cases numeral
    | [field] =>
      rw [parts] at goesOn
      have second := (List.cons_prefix_cons.mp goesOn).2
      rw [(List.cons_prefix_cons.mp second).1] at numeral
      cases numeral
    | first :: second :: more =>
      rw [parts] at goesOn
      obtain ⟨firstEmpty, goesOn⟩ := List.cons_prefix_cons.mp goesOn
      have secondEmpty := (List.cons_prefix_cons.mp goesOn).1
      exact plain ⟨more, by rw [parts, firstEmpty, secondEmpty]; rfl⟩
  · rintro ⟨number, _, _, goesOn⟩
    have longer : fields name <+: fields head := (List.prefix_append _ _).trans goesOn
    exact plain (List.IsPrefix.trans ⟨rest, begins⟩ longer)

/-- Heads of expansions whose marks cannot be taken for each other, nor for those of
copies made for the counters. -/
structure Separated (heads counters : List String) : Prop where
  /-- No head is hidden. -/
  plain : ∀ head ∈ heads, ¬Hidden head
  /-- No head mimics another one. -/
  apart : ∀ head ∈ heads, ∀ other ∈ heads, ¬Mimics head other
  /-- No head is a counter, and neither mimics the other. -/
  noCounter : ∀ head ∈ heads, ∀ counter ∈ counters,
    head ≠ counter ∧ ¬Mimics head counter ∧ ¬Mimics counter head

instance (heads counters : List String) : Decidable (Separated heads counters) :=
  decidable_of_iff ((∀ head ∈ heads, ¬Hidden head) ∧
      (∀ head ∈ heads, ∀ other ∈ heads, ¬Mimics head other) ∧
      ∀ head ∈ heads, ∀ counter ∈ counters,
        head ≠ counter ∧ ¬Mimics head counter ∧ ¬Mimics counter head)
    ⟨fun ⟨plain, apart, noCounter⟩ => ⟨plain, apart, noCounter⟩,
      fun ⟨plain, apart, noCounter⟩ => ⟨plain, apart, noCounter⟩⟩

/-- A name that is not marked with a head and a number from `site` on. -/
def Sealed (heads : List String) (site : Nat) (name : String) : Prop :=
  ∀ head ∈ heads, ∀ number ≥ site, ∀ rest, name ≠ markOf head number ++ rest

/-- A counter from a list, or a minted one. -/
def Counts (counters : List String) (name : String) : Prop := name ∈ counters ∨ Minted name

section

variable {heads counters : List String}

/-- A sealed name stays sealed. -/
theorem Sealed.mono {site later : Nat} {name : String} (closed : Sealed heads site name)
    (after : site ≤ later) : Sealed heads later name :=
  fun head listed number still rest => closed head listed number (Nat.le_trans after still) rest

/-- Names that are not minted are sealed. -/
theorem sealed_of_not_minted {name : String} (source : ¬Minted name) (site : Nat) :
    Sealed heads site name := by
  rintro head _ number _ rest rfl
  exact source (minted_markOf head number rest)

/-- The names of an expansion are sealed afterwards. -/
theorem Separated.sealed_expansion (separated : Separated heads counters) {head : String}
    (listed : head ∈ heads) (site : Nat) (name : String) :
    Sealed heads (site + 1) (markOf head site ++ name) := by
  intro other otherListed number later rest same
  rcases markOf_append_eq same with ⟨_, sameNumber⟩ | mimics | mimics
  · omega
  · exact separated.apart other otherListed head listed mimics
  · exact separated.apart head listed other otherListed mimics

/-- The names of a copy are sealed. -/
theorem Separated.sealed_copy (separated : Separated heads ("loop" :: counters))
    {counter : Option String} (counts : ∀ name ∈ counter, Counts counters name) (copy site : Nat)
    (name : String) : Sealed heads site (copyMark counter copy ++ name) := by
  intro head listed number _ rest same
  rw [copyMark_eq] at same
  have known : counter.getD "loop" ∈ "loop" :: counters ∨ Minted (counter.getD "loop") := by
    cases counter with
    | none => exact .inl List.mem_cons_self
    | some counter => exact (counts counter rfl).imp_left (List.mem_cons_of_mem "loop")
  rcases known with given | minted
  · obtain ⟨differ, first, second⟩ := separated.noCounter head listed _ given
    rcases markOf_append_eq same with ⟨sameHead, _⟩ | mimics | mimics
    · exact differ sameHead.symm
    · exact first mimics
    · exact second mimics
  · have plain := separated.plain head listed
    obtain ⟨first, second⟩ := minted.hidden.not_mimics plain
    rcases markOf_append_eq same with ⟨sameHead, _⟩ | mimics | mimics
    · exact plain (sameHead ▸ minted.hidden)
    · exact second mimics
    · exact first mimics

end

end Timebound
