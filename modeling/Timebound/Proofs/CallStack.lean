import Timebound.Proofs.CallOrder

/-!
# The visit with a stack

The callee-first order, found by a search that keeps a stack and one mark per slot. A function is
put on the stack for every call that leads to it while it is new, so it may be there several
times; the one that is taken off first is followed, and the others are skipped. It stays on the
stack, flagged, below its callees, and is finished when it turns up again. A mark that does not
exist breaks the search off.

The search ends, and it ends as the recursive visit does: with the same order or the same failure
(`Search.runs_iff`). So it never asks for a mark that does not exist.
-/

namespace Timebound

namespace Program

/-! ## Functions that can be visited -/

/-- A function can be visited below the `active` ones, and the depth is enough for it. -/
structure MayVisit (program : Program) (depth : Nat) (active : List FunctionId)
    (id : FunctionId) : Prop where
  /-- The depth is left for all functions that are not active. -/
  enough : program.functions.slotCount ≤ depth + active.length
  /-- No function is visited below itself. -/
  distinct : (id :: active).Nodup
  /-- The functions exist. -/
  live : ∀ other ∈ id :: active, (program.function? other).isSome = true

section MayVisit

variable {program : Program} {depth : Nat} {active finished : List FunctionId} {id : FunctionId}

/-- An existing function can be visited first of all. -/
theorem mayVisit_first {function : Function} (found : program.function? id = some function) :
    program.MayVisit program.functions.slotCount [] id where
  enough := by simp
  distinct := by simp
  live := by simp [found]

/-- Some depth is left, since no more functions are active than there are slots. -/
theorem MayVisit.depth_pos (may : program.MayVisit depth active id) : 0 < depth := by
  have counted := length_le_slotCount may.distinct may.live
  have enough := may.enough
  simp only [List.length_cons] at counted
  omega

/-- A call of another function, without fault, can be followed. -/
theorem MayVisit.call {function : Function} {callee : FunctionId}
    (may : program.MayVisit (depth + 1) active id)
    (sound : program.callFault? active id function callee = none) (apart : callee ≠ id) :
    program.MayVisit depth (id :: active) callee := by
  rcases callFault?_eq_none sound with ⟨same, _⟩ | ⟨_, existing, idle⟩
  · exact absurd same apart
  · refine ⟨?_, List.nodup_cons.mpr ⟨by simp [apart, idle], may.distinct⟩, fun other listed => ?_⟩
    · have enough := may.enough
      simp only [List.length_cons]
      omega
    · rcases List.mem_cons.mp listed with rfl | older
      · exact existing
      · exact may.live other older

/-- A successful visit finishes the function. -/
theorem MayVisit.extends {result : List FunctionId} (may : program.MayVisit depth active id)
    (settled : program.Settled finished)
    (visited : program.visit depth active finished id = .ok result) :
    program.Extends active finished result ∧ id ∈ result :=
  visit_extends depth may.enough may.distinct may.live settled visited

/-- The visit of a finished function changes nothing. -/
theorem visit_finished (depth : Nat) (active : List FunctionId) (seen : id ∈ finished) :
    program.visit depth active finished id = .ok finished := by
  cases depth with
  | zero => rfl
  | succ depth => simp [visit, seen]

/-- The visit of a function with a faulty call fails with the first fault found. -/
theorem visit_fault {function : Function} {cause : Cause} (depth : Nat)
    (found : program.function? id = some function) (unseen : id ∉ finished)
    (fault : function.callees.reverse.findSome? (program.callFault? active id function) =
      some cause) :
    program.visit (depth + 1) active finished id = .error (.analysis function.name cause) := by
  rw [visit, if_neg (by simpa using unseen)]
  simp only [found, fault]

/-- The visit of a function without faulty calls follows them and then finishes the function. -/
theorem visit_enter {function : Function} (depth : Nat)
    (found : program.function? id = some function) (unseen : id ∉ finished)
    (sound : ∀ callee ∈ function.callees, program.callFault? active id function callee = none) :
    program.visit (depth + 1) active finished id =
      (function.callees.filter (· != id)).foldlM (program.visit depth (id :: active)) finished >>=
        fun below => .ok (id :: below) := by
  have faultless : function.callees.reverse.findSome? (program.callFault? active id function) =
      none :=
    List.findSome?_eq_none_iff.mpr fun callee called => sound callee (List.mem_reverse.mp called)
  rw [visit, if_neg (by simpa using unseen)]
  simp only [found, faultless]

end MayVisit

end Program

/-! ## The search -/

/-- How far a search has come with a function. -/
inductive Mark where
  /-- Not looked at. -/
  | new
  /-- Its callees are being followed. -/
  | active
  /-- Finished, and all its callees before it. -/
  | done
  deriving DecidableEq

/-- A search in progress. -/
structure Search where
  /-- One mark per slot. -/
  marks : List Mark
  /-- The functions to look at, the next one first. A flagged one has been followed. -/
  stack : List (FunctionId × Bool)
  /-- The finished functions, latest first. -/
  finished : List FunctionId

namespace Search

/-- Why a search breaks off. -/
inductive Halt where
  /-- The function has no mark. -/
  | outOfRange (id : FunctionId)
  /-- There is no order. -/
  | failed (failure : Failure)

/-- Look at one call of a function that has just become active. -/
def examine (program : Program) (marks : List Mark) (id : FunctionId) (function : Function)
    (stack : List (FunctionId × Bool)) (callee : FunctionId) :
    Except Halt (List (FunctionId × Bool)) :=
  if callee = id then
    if function.recursionLimit.isSome then .ok stack
    else .error (.failed (.analysis function.name .unannotatedRecursion))
  else match program.function? callee with
    | none => .error (.failed (.analysis function.name (.missingCallee callee)))
    | some target => match marks[callee.slot]? with
      | none => .error (.outOfRange callee)
      | some .active => .error (.failed (.analysis function.name (.callCycle target.name)))
      | some .new => .ok ((callee, false) :: stack)
      | some .done => .ok stack

/-- Take a function off the stack and deal with it. -/
def step (program : Program) (search : Search) (id : FunctionId) (followed : Bool)
    (rest : List (FunctionId × Bool)) : Except Halt Search :=
  match search.marks[id.slot]? with
  | none => .error (.outOfRange id)
  | some mark =>
    if followed then .ok ⟨search.marks.set id.slot .done, rest, id :: search.finished⟩
    else if mark = .new then match program.function? id with
      | none => .ok { search with stack := rest }
      | some function => do
        let marks := search.marks.set id.slot .active
        let stack ← function.callees.reverse.foldlM (examine program marks id function)
          ((id, true) :: rest)
        .ok { search with marks, stack }
    else .ok { search with stack := rest }

/-- A search that ends, and how it does. -/
inductive Runs (program : Program) : Search → Except Halt (List FunctionId) → Prop where
  /-- With an empty stack the order is found. -/
  | stop (marks : List Mark) (finished : List FunctionId) :
      Runs program ⟨marks, [], finished⟩ (.ok finished.reverse)
  /-- A step leads on. -/
  | next {marks : List Mark} {id : FunctionId} {followed : Bool} {rest : List (FunctionId × Bool)}
      {finished : List FunctionId} {later : Search} {outcome : Except Halt (List FunctionId)}
      (stepped : step program ⟨marks, (id, followed) :: rest, finished⟩ id followed rest =
        .ok later)
      (runs : Runs program later outcome) :
      Runs program ⟨marks, (id, followed) :: rest, finished⟩ outcome
  /-- A step breaks the search off. -/
  | halt {marks : List Mark} {id : FunctionId} {followed : Bool} {rest : List (FunctionId × Bool)}
      {finished : List FunctionId} {reason : Halt}
      (stepped : step program ⟨marks, (id, followed) :: rest, finished⟩ id followed rest =
        .error reason) :
      Runs program ⟨marks, (id, followed) :: rest, finished⟩ (.error reason)

/-- The search begins with the roots, in slot order, and everything is new. -/
def start (program : Program) : Search where
  marks := List.replicate program.functions.slotCount .new
  stack := (program.functions.entries.filter fun entry => entry.2.isRoot).map fun entry =>
    (entry.1, false)
  finished := []

/-- A search ends in one way. -/
theorem Runs.unique {program : Program} {search : Search}
    {outcome other : Except Halt (List FunctionId)} (runs : Runs program search outcome)
    (again : Runs program search other) : outcome = other := by
  induction runs with
  | stop =>
    cases again
    rfl
  | next stepped _ ih =>
    cases again with
    | next restepped reruns =>
      cases stepped.symm.trans restepped
      exact ih reruns
    | halt restepped => cases stepped.symm.trans restepped
  | halt stepped =>
    cases again with
    | next restepped _ => cases stepped.symm.trans restepped
    | halt restepped =>
      cases stepped.symm.trans restepped
      rfl

/-! ## Marks -/

/-- The mark of a function below the active ones. -/
def markOf (active finished : List FunctionId) (id : FunctionId) : Mark :=
  if active.contains id then .active else if finished.contains id then .done else .new

/-- The marks of all slots. -/
def marksOf (slots : Nat) (active finished : List FunctionId) : List Mark :=
  (List.range slots).map fun slot => markOf active finished ⟨slot⟩

/-- A function below the slots has its mark. -/
theorem getElem?_marksOf {slots : Nat} {id : FunctionId} (inside : id.slot < slots)
    (active finished : List FunctionId) :
    (marksOf slots active finished)[id.slot]? = some (markOf active finished id) := by
  simp [marksOf, inside]

/-- Marks differ only where they are set. -/
theorem set_marksOf {slots : Nat} {id : FunctionId} {mark : Mark}
    {active finished newActive newFinished : List FunctionId}
    (here : markOf newActive newFinished id = mark)
    (others : ∀ other, other ≠ id →
      markOf newActive newFinished other = markOf active finished other) :
    (marksOf slots active finished).set id.slot mark = marksOf slots newActive newFinished := by
  refine List.ext_getElem (by simp [marksOf]) fun slot inside _ => ?_
  rw [List.getElem_set]
  split
  · rename_i same
    subst same
    simpa [marksOf] using here.symm
  · rename_i apart
    have other : (⟨slot⟩ : FunctionId) ≠ id := fun same => apart (by rw [← same])
    simpa [marksOf] using (others ⟨slot⟩ other).symm

/-- A function becomes active. -/
theorem set_active (slots : Nat) (id : FunctionId) (active finished : List FunctionId) :
    (marksOf slots active finished).set id.slot .active = marksOf slots (id :: active) finished :=
  set_marksOf (by simp [markOf]) fun other apart => by simp [markOf, apart]

/-- An active function is done. -/
theorem set_done (slots : Nat) {id : FunctionId} {active : List FunctionId} (idle : id ∉ active)
    (finished : List FunctionId) :
    (marksOf slots (id :: active) finished).set id.slot .done =
      marksOf slots active (id :: finished) :=
  set_marksOf (by simp [markOf, idle]) fun other apart => by simp [markOf, apart]

/-! ## The calls of one function -/

section Calls

variable {program : Program} {active finished : List FunctionId} {id : FunctionId}
  {function : Function}

/-- A call that the visit objects to breaks the search off with the same cause. -/
theorem examine_fault {callee : FunctionId} {cause : Cause}
    (fault : program.callFault? active id function callee = some cause)
    (stack : List (FunctionId × Bool)) :
    examine program (marksOf program.functions.slotCount (id :: active) finished) id function stack
      callee = .error (.failed (.analysis function.name cause)) := by
  unfold Program.callFault? at fault
  unfold examine
  by_cases self : callee = id
  · by_cases limited : function.recursionLimit.isSome = true <;> simp_all
  · cases existing : program.function? callee with
    | none => simp_all
    | some target =>
      have inside : callee.slot < program.functions.slotCount := Arena.slot_lt_of_get? existing
      by_cases busy : callee ∈ active
      · simp_all [getElem?_marksOf inside, markOf]
      · simp [self, existing, busy] at fault

/-- Any other call puts the callee on the stack, unless it is the caller or finished. -/
theorem examine_sound {callee : FunctionId}
    (sound : program.callFault? active id function callee = none)
    (stack : List (FunctionId × Bool)) :
    examine program (marksOf program.functions.slotCount (id :: active) finished) id function stack
      callee = .ok (if !finished.contains callee && callee != id then (callee, false) :: stack
        else stack) := by
  unfold examine
  rcases Program.callFault?_eq_none sound with ⟨rfl, limited⟩ | ⟨apart, existing, idle⟩
  · simp [limited]
  · obtain ⟨target, existing⟩ := Option.isSome_iff_exists.mp existing
    have inside : callee.slot < program.functions.slotCount := Arena.slot_lt_of_get? existing
    by_cases done : callee ∈ finished <;>
      simp [apart, existing, getElem?_marksOf inside, markOf, idle, done]

/-- The first fault among the calls is the one reported. -/
theorem foldlM_examine_fault {callees : List FunctionId} {cause : Cause}
    (fault : callees.findSome? (program.callFault? active id function) = some cause)
    (stack : List (FunctionId × Bool)) :
    callees.foldlM (examine program (marksOf program.functions.slotCount (id :: active) finished)
      id function) stack = .error (.failed (.analysis function.name cause)) := by
  induction callees generalizing stack with
  | nil => simp at fault
  | cons callee rest ih =>
    rw [List.foldlM_cons]
    rw [List.findSome?_cons] at fault
    cases first : program.callFault? active id function callee with
    | some found =>
      simp only [first, Option.some.injEq] at fault
      rw [examine_fault first, fault]
      rfl
    | none =>
      simp only [first] at fault
      rw [examine_sound first]
      exact ih fault _

/-- Without a fault the callees to follow are put on the stack, the last examined on top. -/
theorem foldlM_examine_sound {callees : List FunctionId}
    (sound : ∀ callee ∈ callees, program.callFault? active id function callee = none)
    (stack : List (FunctionId × Bool)) :
    callees.foldlM (examine program (marksOf program.functions.slotCount (id :: active) finished)
      id function) stack = .ok (((callees.filter fun callee =>
        !finished.contains callee && callee != id).reverse.map fun callee => (callee, false)) ++
          stack) := by
  induction callees generalizing stack with
  | nil => rfl
  | cons callee rest ih =>
    obtain ⟨first, others⟩ := List.forall_mem_cons.mp sound
    rw [List.foldlM_cons, examine_sound first]
    refine (ih others _).trans ?_
    rw [List.filter_cons]
    split <;> simp

end Calls

/-! ## The search follows the visit -/

/-- A search does what a visit below the `active` functions does: it comes to the rest of the
stack with the finished functions of the visit, or breaks off with the failure of the visit. -/
structure Follows (program : Program) (active : List FunctionId)
    (rest : List (FunctionId × Bool)) (search : Search)
    (visited : Except Failure (List FunctionId)) : Prop where
  /-- What happens with the rest of the stack is what happens with the whole. -/
  ok : ∀ finished, visited = .ok finished → ∀ outcome,
    Runs program ⟨marksOf program.functions.slotCount active finished, rest, finished⟩ outcome →
      Runs program search outcome
  /-- A failure ends the search. -/
  failed : ∀ failure, visited = .error failure → Runs program search (.error (.failed failure))

section Follow

variable {program : Program} {active finished : List FunctionId} {id : FunctionId}
  {rest : List (FunctionId × Bool)}

/-- A function that is not new is skipped. -/
theorem step_skip (inside : id.slot < program.functions.slotCount) (seen : id ∈ finished) :
    step program ⟨marksOf program.functions.slotCount active finished, (id, false) :: rest,
      finished⟩ id false rest =
      .ok ⟨marksOf program.functions.slotCount active finished, rest, finished⟩ := by
  have known : markOf active finished id ≠ .new := by
    unfold markOf
    split <;> simp [seen]
  simp [step, getElem?_marksOf inside, known]

/-- A function that has been followed is finished. -/
theorem step_finish (inside : id.slot < program.functions.slotCount) (idle : id ∉ active) :
    step program ⟨marksOf program.functions.slotCount (id :: active) finished,
      (id, true) :: rest, finished⟩ id true rest =
      .ok ⟨marksOf program.functions.slotCount active (id :: finished), rest, id :: finished⟩ := by
  simp [step, getElem?_marksOf inside, set_done _ idle]

/-- A new function becomes active, and its calls are examined. -/
theorem step_enter {function : Function} (found : program.function? id = some function)
    (idle : id ∉ active) (unseen : id ∉ finished) (rest : List (FunctionId × Bool)) :
    step program ⟨marksOf program.functions.slotCount active finished, (id, false) :: rest,
      finished⟩ id false rest =
      Except.map (fun stack =>
        ⟨marksOf program.functions.slotCount (id :: active) finished, stack, finished⟩)
        (function.callees.reverse.foldlM (examine program
          (marksOf program.functions.slotCount (id :: active) finished) id function)
            ((id, true) :: rest)) := by
  have inside : id.slot < program.functions.slotCount := Arena.slot_lt_of_get? found
  have isNew : markOf active finished id = .new := by simp [markOf, idle, unseen]
  simp only [step, getElem?_marksOf inside, isNew, found, set_active, Bool.false_eq_true,
    if_false, if_true]
  generalize (List.foldlM _ _ _ : Except Halt (List (FunctionId × Bool))) = examined
  cases examined <;> rfl

/-- Functions on top of the stack are visited one after the other, when each of them is. Those
that were finished before they were put on the stack are not on it, and their visit does
nothing. -/
theorem follows_foldlM {visitOne : List FunctionId → FunctionId → Except Failure (List FunctionId)}
    (callees : List FunctionId)
    (single : ∀ callee ∈ callees, ∀ finished, program.Settled finished →
      (∀ rest, Follows program active rest
        ⟨marksOf program.functions.slotCount active finished, (callee, false) :: rest, finished⟩
        (visitOne finished callee)) ∧
      (∀ result, visitOne finished callee = .ok result →
        program.Extends active finished result) ∧
      (callee ∈ finished → visitOne finished callee = .ok finished))
    {seen : List FunctionId} (settled : program.Settled finished) (older : seen ⊆ finished) :
    Follows program active rest
      ⟨marksOf program.functions.slotCount active finished,
        ((callees.filter fun callee => !seen.contains callee).map fun callee => (callee, false)) ++
          rest, finished⟩
      (callees.foldlM visitOne finished) := by
  induction callees generalizing finished with
  | nil =>
    refine ⟨fun result done outcome runs => ?_, fun failure failed => by cases failed⟩
    cases done
    exact runs
  | cons callee others ih =>
    obtain ⟨one, grows, skips⟩ := single callee (by simp) finished settled
    have remaining := fun other listed => single other (List.mem_cons_of_mem callee listed)
    rw [List.foldlM_cons, List.filter_cons]
    by_cases known : callee ∈ seen
    · rw [skips (older known), if_neg (by simp [known])]
      exact ih remaining settled older
    · rw [if_pos (by simp [known])]
      cases visited : visitOne finished callee with
      | error failure =>
        refine ⟨fun result done => (by cases done), fun other failed => ?_⟩
        cases failed
        exact (one _).failed failure visited
      | ok middle =>
        have grown := grows middle visited
        obtain ⟨later, broken⟩ := ih remaining grown.settled (List.Subset.trans older grown.kept)
        refine ⟨fun result done outcome runs => ?_, fun failure failed => ?_⟩
        · exact (one _).ok middle visited outcome (later result done outcome runs)
        · exact (one _).ok middle visited _ (broken failure failed)

/-- The search follows every visit. -/
theorem follows_visit (depth : Nat) :
    ∀ {active finished : List FunctionId} {id : FunctionId} {rest : List (FunctionId × Bool)},
      program.MayVisit depth active id → program.Settled finished →
      Follows program active rest
        ⟨marksOf program.functions.slotCount active finished, (id, false) :: rest, finished⟩
        (program.visit depth active finished id) := by
  induction depth with
  | zero =>
    intro active finished id rest may
    exact absurd may.depth_pos (Nat.lt_irrefl 0)
  | succ depth ih =>
    intro active finished id rest may settled
    obtain ⟨function, found⟩ := Option.isSome_iff_exists.mp (may.live id (by simp))
    have inside : id.slot < program.functions.slotCount := Arena.slot_lt_of_get? found
    have idle : id ∉ active := (List.nodup_cons.mp may.distinct).1
    by_cases seen : id ∈ finished
    · rw [Program.visit_finished _ _ seen]
      refine ⟨fun result done outcome runs => ?_, fun failure failed => (by cases failed)⟩
      cases done
      exact .next (step_skip inside seen) runs
    · have entered := step_enter found idle seen rest
      cases faults : function.callees.reverse.findSome? (program.callFault? active id function) with
      | some cause =>
        rw [Program.visit_fault depth found seen faults]
        refine ⟨fun result done => (by cases done), fun failure failed => ?_⟩
        cases failed
        rw [foldlM_examine_fault faults] at entered
        exact .halt entered
      | none =>
        have sound := List.findSome?_eq_none_iff.mp faults
        rw [Program.visit_enter depth found seen fun callee called =>
          sound callee (List.mem_reverse.mpr called)]
        rw [foldlM_examine_sound sound, List.filter_reverse, List.reverse_reverse] at entered
        have callees : Follows program (id :: active) ((id, true) :: rest) _ _ :=
          follows_foldlM (function.callees.filter (· != id))
            (fun callee called start settledStart => by
              obtain ⟨called, other⟩ := List.mem_filter.mp called
              have enters := may.call (sound callee (List.mem_reverse.mpr called))
                (by simpa using other)
              exact ⟨fun _ => ih enters settledStart,
                fun _ done => (enters.extends settledStart done).1,
                Program.visit_finished depth _⟩) settled (List.Subset.refl finished)
        rw [List.filter_filter] at callees
        cases visited : (function.callees.filter (· != id)).foldlM
            (program.visit depth (id :: active)) finished with
        | error failure =>
          refine ⟨fun result done => (by cases done), fun other failed => ?_⟩
          cases failed
          exact .next entered (callees.failed failure visited)
        | ok below =>
          refine ⟨fun result done outcome runs => ?_, fun failure failed => (by cases failed)⟩
          cases done
          exact .next entered
            (callees.ok below visited outcome (.next (step_finish inside idle) runs))

end Follow

/-- The search ends as the visit of the roots does. -/
theorem runs_start (program : Program) :
    Runs program (start program) (program.callOrder.mapError .failed) := by
  have roots : Follows program [] [] _ _ :=
    follows_foldlM ((program.functions.entries.filter fun entry => entry.2.isRoot).map (·.1))
      (fun id listed finished settled => by
        obtain ⟨⟨_, function⟩, entry, rfl⟩ := List.mem_map.mp listed
        have enters := Program.mayVisit_first (Arena.mem_entries.mp (List.mem_filter.mp entry).1)
        exact ⟨fun _ => follows_visit _ enters settled,
          fun _ done => (enters.extends settled done).1, Program.visit_finished _ _⟩)
      (show program.Settled [] from trivial) (List.Subset.refl [])
  have begins : start program = ⟨marksOf program.functions.slotCount [] [],
      ((((program.functions.entries.filter fun entry => entry.2.isRoot).map (·.1)).filter
        fun callee => !([] : List FunctionId).contains callee).map fun callee => (callee, false)) ++
          [], []⟩ := by
    have allNew : List.replicate program.functions.slotCount Mark.new =
        marksOf program.functions.slotCount [] [] :=
      List.ext_getElem (by simp [marksOf]) fun slot _ _ => by simp [marksOf, markOf]
    simp [start, allNew, Function.comp_def]
  rw [begins, Program.callOrder]
  cases visited : ((program.functions.entries.filter fun entry => entry.2.isRoot).map (·.1)).foldlM
      (program.visit program.functions.slotCount []) [] with
  | error failure => exact roots.failed failure visited
  | ok finished => exact roots.ok finished visited _ (.stop _ finished)

/-- The search ends in one way, and that is how the visit ends: with its order, or with its
failure. No mark is ever out of range. -/
theorem runs_iff (program : Program) (outcome : Except Halt (List FunctionId)) :
    Runs program (start program) outcome ↔ outcome = program.callOrder.mapError .failed := by
  refine ⟨fun runs => runs.unique (runs_start program), fun same => ?_⟩
  rw [same]
  exact runs_start program

end Search

end Timebound
