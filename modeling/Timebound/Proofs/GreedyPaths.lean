import Mathlib.Data.List.Forall2
import Timebound.Proofs.Analyzability
import Timebound.Proofs.CallFrequencies

/-!
# Critical paths as greedy descents

From each function a critical path goes on to the callee whose calls can cost most, measured or
in the worst case, and among equals to the one with the lowest id (`Program.Dominates`), and it
ends where no other function is called (`Program.Descent`). The search for the next function
passes over functions that are on the path already, that do not exist or that have no bound. In a
program that can be analyzed nothing is passed over that way: calls do not lead back, callees
exist, and all of them are bounded. The length that limits a path is never used up.
-/

namespace Timebound

/-- The entries of an arena are listed by ascending slots. -/
theorem Arena.pairwise_entries {kind : Kind} {α : Type} (arena : Arena kind α) :
    arena.entries.Pairwise fun first second => first.1.slot < second.1.slot := by
  rw [Arena.entries_eq]
  refine List.Pairwise.filterMap _ (fun slot other lower entry one another two => ?_)
    List.pairwise_lt_range
  obtain ⟨_, _, rfl⟩ := Option.map_eq_some_iff.mp one
  obtain ⟨_, _, rfl⟩ := Option.map_eq_some_iff.mp two
  exact lower

namespace Program

/-! ## The best of ranked entries -/

section Ranking

/-- One ranked entry goes before another: it ranks higher, or as high with no higher id. -/
def Precedes (first second : Nat × PathEntry) : Prop :=
  second.1 < first.1 ∨ second.1 = first.1 ∧ first.2.id.slot ≤ second.2.id.slot

theorem Precedes.refl (ranked : Nat × PathEntry) : Precedes ranked ranked :=
  .inr ⟨rfl, Nat.le_refl _⟩

theorem Precedes.trans {first second third : Nat × PathEntry} (one : Precedes first second)
    (two : Precedes second third) : Precedes first third := by
  unfold Precedes at one two ⊢
  omega

/-- Of entries with ascending ids the scan keeps one that goes before all of them. -/
theorem foldl_betterRanked_first {best : Nat × PathEntry} {ranked : List (Nat × PathEntry)}
    (ascending : (best :: ranked).Pairwise fun first second => first.2.id.slot < second.2.id.slot) :
    ∃ chosen ∈ best :: ranked, ranked.foldl betterRanked (some best) = some chosen ∧
      ∀ other ∈ best :: ranked, Precedes chosen other := by
  induction ranked generalizing best with
  | nil => exact ⟨best, List.mem_cons_self, rfl, by simpa using Precedes.refl best⟩
  | cons next rest ih =>
    obtain ⟨lower, later⟩ := List.pairwise_cons.mp ascending
    obtain ⟨lowerNext, lowerRest⟩ := List.forall_mem_cons.mp lower
    by_cases keeps : next.1 ≤ best.1
    · have kept : betterRanked (some best) next = some best := if_pos keeps
      have first : Precedes best next := by
        unfold Precedes
        omega
      obtain ⟨chosen, listed, found, before⟩ :=
        ih (List.pairwise_cons.mpr ⟨lowerRest, (List.pairwise_cons.mp later).2⟩)
      obtain ⟨beforeBest, beforeRest⟩ := List.forall_mem_cons.mp before
      rw [List.foldl_cons, kept]
      refine ⟨chosen, ?_, found, List.forall_mem_cons.mpr ⟨beforeBest,
        List.forall_mem_cons.mpr ⟨beforeBest.trans first, beforeRest⟩⟩⟩
      rcases List.mem_cons.mp listed with rfl | among
      · exact List.mem_cons_self
      · exact List.mem_cons_of_mem _ (List.mem_cons_of_mem _ among)
    · have taken : betterRanked (some best) next = some next := if_neg keeps
      have first : Precedes next best := .inl (Nat.lt_of_not_le keeps)
      obtain ⟨chosen, listed, found, before⟩ := ih later
      obtain ⟨beforeNext, _⟩ := List.forall_mem_cons.mp before
      rw [List.foldl_cons, taken]
      exact ⟨chosen, List.mem_cons_of_mem _ listed, found,
        List.forall_mem_cons.mpr ⟨beforeNext.trans first, before⟩⟩

end Ranking

/-! ## Candidates -/

section Candidates

variable (program : Program) (profile : Option Profile) (bounds : Table FunctionId Nat)

/-- How often a function calls another per activation: as measured, or else in the worst case. -/
def callRate? (caller callee : FunctionId) : Option Nat := do
  let source ← program.function? caller
  let target ← program.function? callee
  let worst ← source.callFrequencies.get? callee
  some ((profile.bind (·.frequency? source.name target.name)).getD worst)

/-- What the calls of one function by another can cost together: their rate times the bound. -/
def callWeight? (caller callee : FunctionId) : Option Nat := do
  let rate ← program.callRate? profile caller callee
  let bound ← bounds.get? callee
  some (rate * bound)

/-- An entry for another function that a function calls. -/
structure Candidate (caller : FunctionId) (entry : PathEntry) : Prop where
  /-- The other function is called. -/
  called : program.CallsOther caller entry.id
  /-- The entry bears its name. -/
  named : (program.function? entry.id).map Function.name = some entry.name
  /-- The entry says how often it is called. -/
  rate : program.callRate? profile caller entry.id = some entry.frequency

/-- The entry that stands after a function on a greedy path: of all other functions that it calls
the one whose calls weigh most, and of equals the one with the lowest id. -/
structure Dominates (caller : FunctionId) (entry : PathEntry) : Prop
    extends program.Candidate profile caller entry where
  /-- No calls of another function weigh more, and none with a lower id as much. -/
  greatest : ∀ other, program.CallsOther caller other → ∃ weight most,
    program.callWeight? profile bounds caller other = some weight ∧
      program.callWeight? profile bounds caller entry.id = some most ∧
      (weight < most ∨ weight = most ∧ entry.id.slot ≤ other.slot)

/-- What is below a function on a greedy path: dominating functions, one after the other, until a
function calls no other one. -/
inductive Descent : FunctionId → List PathEntry → Prop where
  /-- The path ends where no other function is called. -/
  | done {last : FunctionId} (ends : ∀ callee, ¬ program.CallsOther last callee) : Descent last []
  /-- The path goes on to the dominating function. -/
  | step {caller : FunctionId} {entry : PathEntry} {below : List PathEntry}
      (dominates : program.Dominates profile bounds caller entry)
      (onward : Descent entry.id below) :
      Descent caller (entry :: below)

end Candidates

section Search

variable (program : Program) (profile : Option Profile) (bounds : Table FunctionId Nat)

/-- The ranked entries among which the next one is chosen. -/
def rankedCallees (visited : List FunctionId) (caller : Function) : List (Nat × PathEntry) :=
  (caller.callFrequencies.entries.filter fun call => !visited.contains call.1).filterMap
    (program.rankedCallee? profile bounds caller)

variable {program profile bounds} {visited : List FunctionId} {current : FunctionId}
  {caller : Function}

/-- The next entry is the best of the ranked ones. -/
theorem nextOnPath?_eq (found : program.function? current = some caller) :
    program.nextOnPath? profile bounds visited current =
      ((program.rankedCallees profile bounds visited caller).foldl betterRanked none).map
        (·.2) := by
  rw [nextOnPath?, found]
  rfl

/-- A ranked entry is for the call it is made for, and its rank is frequency times bound. -/
theorem rankedCallee?_eq_some {call : FunctionId × Nat} {ranked : Nat × PathEntry}
    (made : program.rankedCallee? profile bounds caller call = some ranked) :
    ∃ target bound, program.function? call.1 = some target ∧ bounds.get? call.1 = some bound ∧
      ranked = (((profile.bind (·.frequency? caller.name target.name)).getD call.2) * bound,
        ⟨call.1, target.name,
          (profile.bind (·.frequency? caller.name target.name)).getD call.2⟩) := by
  unfold rankedCallee? at made
  simp only [Option.bind_eq_bind, Option.bind_eq_some_iff, Option.some.injEq] at made
  obtain ⟨target, foundTarget, bound, known, rfl⟩ := made
  exact ⟨target, bound, foundTarget, known, rfl⟩

/-- Ranked entries have ascending ids. -/
theorem pairwise_rankedCallees :
    (program.rankedCallees profile bounds visited caller).Pairwise
      fun first second => first.2.id.slot < second.2.id.slot := by
  refine List.Pairwise.filterMap _ (fun call other lower ranked made another madeOther => ?_)
    (caller.callFrequencies.ascending.filter _)
  obtain ⟨_, _, _, _, rfl⟩ := rankedCallee?_eq_some made
  obtain ⟨_, _, _, _, rfl⟩ := rankedCallee?_eq_some madeOther
  exact Nat.compare_eq_lt.mp lower

/-- A ranked entry is a candidate, and its rank is the weight of the calls. -/
theorem candidate_of_ranked (found : program.function? current = some caller)
    (listed : current ∈ visited) {ranked : Nat × PathEntry}
    (among : ranked ∈ program.rankedCallees profile bounds visited caller) :
    program.Candidate profile current ranked.2 ∧
      program.callWeight? profile bounds current ranked.2.id = some ranked.1 := by
  obtain ⟨⟨callee, worst⟩, kept, made⟩ := List.mem_filterMap.mp among
  obtain ⟨entry, unvisited⟩ := List.mem_filter.mp kept
  obtain ⟨target, bound, foundTarget, known, rfl⟩ := rankedCallee?_eq_some made
  have frequent : caller.callFrequencies.get? callee = some worst := Table.mem_entries.mp entry
  have called : callee ∈ caller.callees := by
    by_contra missing
    rw [Function.get?_callFrequencies, if_neg missing] at frequent
    cases frequent
  have apart : callee ≠ current := fun same => by simp [same, listed] at unvisited
  have rate : program.callRate? profile current callee =
      some ((profile.bind (·.frequency? caller.name target.name)).getD worst) := by
    simp [callRate?, found, foundTarget, frequent]
  exact ⟨⟨⟨apart, caller, found, called⟩, by simp [foundTarget], rate⟩,
    by simp [callWeight?, rate, known]⟩

/-- A callee that is not on the path, exists and has a bound has a ranked entry. -/
theorem exists_ranked {callee : FunctionId} (called : callee ∈ caller.callees)
    (unvisited : callee ∉ visited) (existing : (program.function? callee).isSome = true)
    (bounded : (bounds.get? callee).isSome = true) :
    ∃ ranked ∈ program.rankedCallees profile bounds visited caller, ranked.2.id = callee := by
  obtain ⟨target, found⟩ := Option.isSome_iff_exists.mp existing
  obtain ⟨bound, known⟩ := Option.isSome_iff_exists.mp bounded
  have frequent := caller.get?_callFrequencies callee
  rw [if_pos called] at frequent
  obtain ⟨ranked, made⟩ : ∃ ranked, program.rankedCallee? profile bounds caller
      (callee, capped (Block.worstCalls callee caller.body)) = some ranked := by
    simp only [rankedCallee?, found, known]
    exact ⟨_, rfl⟩
  have listed : ranked ∈ program.rankedCallees profile bounds visited caller :=
    List.mem_filterMap.mpr ⟨_, List.mem_filter.mpr ⟨Table.mem_entries.mpr frequent,
      by simpa using unvisited⟩, made⟩
  obtain ⟨_, _, _, _, rfl⟩ := rankedCallee?_eq_some made
  exact ⟨_, listed, rfl⟩

/-- A function that calls another has it among its callees. -/
theorem CallsOther.mem_callees {callee : FunctionId} (calls : program.CallsOther current callee)
    (found : program.function? current = some caller) : callee ∈ caller.callees := by
  obtain ⟨_, function, foundSame, called⟩ := calls
  cases found.symm.trans foundSame
  exact called

/-- What the search needs of the other functions that are called: they are not on the path, they
exist and they are bounded. -/
structure Open (program : Program) (bounds : Table FunctionId Nat) (visited : List FunctionId)
    (current : FunctionId) : Prop where
  /-- The current function is on the path. -/
  listed : current ∈ visited
  /-- No other function on the path is called. -/
  unvisited : ∀ callee, program.CallsOther current callee → callee ∉ visited
  /-- Callees exist. -/
  existing : ∀ callee, program.CallsOther current callee → (program.function? callee).isSome = true
  /-- Callees are bounded. -/
  bounded : ∀ callee, program.CallsOther current callee → (bounds.get? callee).isSome = true

/-- The search finds the dominating function, unless no other function is called. -/
theorem Open.dominating (isOpen : program.Open bounds visited current)
    (found : program.function? current = some caller) :
    (program.nextOnPath? profile bounds visited current = none ∧
        ∀ callee, ¬ program.CallsOther current callee) ∨
      ∃ entry, program.nextOnPath? profile bounds visited current = some entry ∧
        program.Dominates profile bounds current entry := by
  have ranks (callee : FunctionId) (calls : program.CallsOther current callee) :
      ∃ ranked ∈ program.rankedCallees profile bounds visited caller, ranked.2.id = callee :=
    exists_ranked (calls.mem_callees found) (isOpen.unvisited callee calls)
      (isOpen.existing callee calls) (isOpen.bounded callee calls)
  have candidates (ranked : Nat × PathEntry)
      (among : ranked ∈ program.rankedCallees profile bounds visited caller) :
      program.Candidate profile current ranked.2 ∧
        program.callWeight? profile bounds current ranked.2.id = some ranked.1 :=
    candidate_of_ranked found isOpen.listed among
  rw [nextOnPath?_eq found]
  have ascending : (program.rankedCallees profile bounds visited caller).Pairwise
      fun first second => first.2.id.slot < second.2.id.slot := pairwise_rankedCallees
  generalize program.rankedCallees profile bounds visited caller = ranked
    at ranks candidates ascending ⊢
  cases ranked with
  | nil =>
    refine .inl ⟨rfl, fun callee calls => ?_⟩
    obtain ⟨_, listed, _⟩ := ranks callee calls
    cases listed
  | cons best rest =>
    obtain ⟨chosen, listed, picked, before⟩ := foldl_betterRanked_first ascending
    obtain ⟨candidate, most⟩ := candidates chosen listed
    refine .inr ⟨chosen.2, congrArg (Option.map (·.2)) picked, candidate, fun other calls => ?_⟩
    obtain ⟨ranked, among, rfl⟩ := ranks other calls
    exact ⟨ranked.1, chosen.1, (candidates ranked among).2, most, before ranked among⟩

end Search

/-! ## Descents -/

section Descents

variable {program : Program} {profile : Option Profile} {bounds : Table FunctionId Nat}

/-- The functions on a path so far, down to the current one. -/
structure OnPath (program : Program) (visited : List FunctionId) (current : FunctionId) : Prop where
  /-- The current function is on the path. -/
  listed : current ∈ visited
  /-- The functions on the path can be got at. -/
  reached : ∀ earlier ∈ visited, program.Reaches earlier
  /-- Each of them leads to the current one. -/
  above : ∀ earlier ∈ visited, earlier = current ∨
    Relation.TransGen program.CallsOther earlier current
  /-- None is met twice. -/
  distinct : visited.Nodup

variable {visited : List FunctionId} {current callee : FunctionId}

/-- What is called by a function that can be got at, and exists, can be got at. -/
theorem CallsOther.reaches (calls : program.CallsOther current callee) (sound : program.SoundCalls)
    (reached : program.Reaches current) : program.Reaches callee := by
  obtain ⟨_, function, found, called⟩ := calls
  obtain ⟨target, existing⟩ := Option.isSome_iff_exists.mp (sound.existing reached found called)
  exact .call reached found called existing

/-- No function on the path is called by the current one, apart from itself. -/
theorem OnPath.unvisited (onPath : program.OnPath visited current) (sound : program.SoundCalls)
    (calls : program.CallsOther current callee) : callee ∉ visited := by
  intro met
  rcases onPath.above callee met with same | leads
  · exact calls.1 same
  · exact sound.acyclic (onPath.reached callee met) (leads.tail calls)

/-- A path goes on to any other function that is called. -/
theorem OnPath.extend (onPath : program.OnPath visited current) (sound : program.SoundCalls)
    (calls : program.CallsOther current callee) : program.OnPath (callee :: visited) callee where
  listed := List.mem_cons_self
  reached := List.forall_mem_cons.mpr
    ⟨calls.reaches sound (onPath.reached current onPath.listed), onPath.reached⟩
  above := by
    refine List.forall_mem_cons.mpr ⟨.inl rfl, fun earlier met => .inr ?_⟩
    rcases onPath.above earlier met with rfl | leads
    · exact .single calls
    · exact leads.tail calls
  distinct := List.nodup_cons.mpr ⟨onPath.unvisited sound calls, onPath.distinct⟩

/-- Where everything that can be got at is bounded, the search on a path passes nothing over. -/
theorem OnPath.isOpen (onPath : program.OnPath visited current) (sound : program.SoundCalls)
    (bounded : ∀ id, program.Reaches id → (bounds.get? id).isSome = true) :
    program.Open bounds visited current where
  listed := onPath.listed
  unvisited _ calls := onPath.unvisited sound calls
  existing _ calls := (calls.reaches sound (onPath.reached current onPath.listed)).isSome
  bounded callee calls :=
    bounded callee (calls.reaches sound (onPath.reached current onPath.listed))

/-- Below a function on a path the search makes a greedy descent. -/
theorem OnPath.descent (sound : program.SoundCalls)
    (bounded : ∀ id, program.Reaches id → (bounds.get? id).isSome = true) (length : Nat) :
    ∀ {visited : List FunctionId} {current : FunctionId}, program.OnPath visited current →
      program.functions.slotCount ≤ length + visited.length →
      program.Descent profile bounds current
        (program.descend profile bounds length visited current) := by
  induction length with
  | zero =>
    -- As many functions are on the path as there are slots, so no other one can be called.
    intro visited current onPath enough
    refine .done fun callee calls => ?_
    have further := onPath.extend sound calls
    have counted := length_le_slotCount further.distinct
      fun id met => (further.reached id met).isSome
    rw [List.length_cons] at counted
    omega
  | succ length ih =>
    intro visited current onPath enough
    obtain ⟨caller, found⟩ :=
      Option.isSome_iff_exists.mp (onPath.reached current onPath.listed).isSome
    rw [descend]
    rcases (onPath.isOpen sound bounded).dominating found with
      ⟨none, ends⟩ | ⟨entry, some, dominates⟩
    · rw [none]
      exact .done ends
    · rw [some]
      exact .step dominates (ih (onPath.extend sound dominates.called)
        (by rw [List.length_cons]; omega))

/-- The functions of a descent are called from above, directly or by way of others. -/
theorem Descent.calls {below : List PathEntry}
    (descent : program.Descent profile bounds current below) :
    ∀ entry ∈ below, Relation.TransGen program.CallsOther current entry.id := by
  induction descent with
  | done => exact List.forall_mem_nil _
  | step dominates _ ih =>
    refine List.forall_mem_cons.mpr ⟨.single dominates.called, fun entry listed => ?_⟩
    exact .head dominates.called (ih entry listed)

/-- A descent meets no function twice. -/
theorem Descent.nodup (sound : program.SoundCalls) {below : List PathEntry}
    (descent : program.Descent profile bounds current below) (reached : program.Reaches current) :
    (current :: below.map (·.id)).Nodup := by
  induction descent with
  | done => exact List.nodup_singleton _
  | step dominates onward ih =>
    refine List.nodup_cons.mpr ⟨fun again => ?_, ih (dominates.called.reaches sound reached)⟩
    obtain ⟨entry, listed, same⟩ := List.mem_map.mp again
    have circle := (Descent.step dominates onward).calls entry listed
    exact sound.acyclic reached (same ▸ circle)

end Descents

/-! ## The paths of an analysis -/

/-- The critical path of a root. -/
structure IsCriticalPath (program : Program) (profile : Option Profile)
    (bounds : Table FunctionId Nat) (root : FunctionId) (path : CriticalPath) : Prop where
  /-- The path bears the name of the root, starts there with frequency one, and descends greedily
  until no other function is called. -/
  descends : ∃ function below, program.function? root = some function ∧
    path.root = function.name ∧ path.entries = ⟨root, function.name, 1⟩ :: below ∧
    program.Descent profile bounds root below
  /-- It carries the bound of the root. -/
  bound : bounds.get? root = some path.bound
  /-- No function is on it twice. -/
  distinct : (path.entries.map (·.id)).Nodup

section Analysis

variable {program : Program} {profile : Option Profile} {analysis : Analysis}

/-- The paths of an analysis are those found for the roots. -/
theorem analyze_paths (analyzed : program.analyze profile = .ok analysis) :
    analysis.paths = (program.functions.entries.filter fun entry => entry.2.isRoot).filterMap
      (program.criticalPath? profile analysis.bounds) := by
  unfold analyze at analyzed
  simp only [bind_eq_ok_iff, Except.ok.injEq] at analyzed
  obtain ⟨order, _, bounds, _, rfl⟩ := analyzed
  rfl

/-- In an analyzed program every root has a critical path. -/
theorem exists_criticalPath (analyzed : program.analyze profile = .ok analysis) {root : FunctionId}
    {function : Function} (found : program.function? root = some function)
    (isRoot : function.isRoot = true) :
    ∃ path, program.criticalPath? profile analysis.bounds (root, function) = some path ∧
      program.IsCriticalPath profile analysis.bounds root path := by
  obtain ⟨analyzable, _, _, exact⟩ := exact_of_analyze analyzed
  have sound := analyzable.toSoundCalls
  have bounded (id : FunctionId) (reached : program.Reaches id) :
      (analysis.bounds.get? id).isSome = true :=
    Option.isSome_iff_exists.mpr ⟨_, exact id reached⟩
  have reached : program.Reaches root := .root found isRoot
  have onPath : program.OnPath [root] root := {
    listed := List.mem_singleton_self root
    reached := by simpa using reached
    above := by simp
    distinct := List.nodup_singleton root }
  have descent : program.Descent profile analysis.bounds root
      (program.descend profile analysis.bounds program.functions.slotCount [root] root) :=
    onPath.descent sound bounded program.functions.slotCount (Nat.le_add_right _ _)
  have known : analysis.bounds.get? root = some (program.exactBound root) := exact root reached
  refine ⟨_, by rw [criticalPath?, known]; rfl, ⟨function, _, found, rfl, rfl, descent⟩, known, ?_⟩
  exact descent.nodup sound reached

end Analysis

/-- A list of what is found for every element, next to the elements. -/
theorem forall₂_filterMap {α β γ : Type} {find : α → Option β} {key : α → γ}
    {related : γ → β → Prop} {list : List α}
    (all : ∀ element ∈ list, ∃ value, find element = some value ∧ related (key element) value) :
    List.Forall₂ related (list.map key) (list.filterMap find) := by
  induction list with
  | nil => exact .nil
  | cons first rest ih =>
    obtain ⟨⟨value, found, holds⟩, others⟩ := List.forall_mem_cons.mp all
    rw [List.map_cons, List.filterMap_cons_some found]
    exact .cons holds (ih others)

/-- Critical paths are maximal greedy descents: an analysis has exactly one for every root, in the
order of ids. It starts at the root with frequency one and carries its bound, goes on from each
function to the one that dominates among all others it calls, whatever the profile says, and ends
at the first function that calls no other one. No function is on it twice. -/
theorem analyze_paths_greedy {program : Program} {profile : Option Profile} {analysis : Analysis}
    (analyzed : program.analyze profile = .ok analysis) :
    ∃ roots : List FunctionId, roots.Pairwise (fun first second => first.slot < second.slot) ∧
      (∀ id, id ∈ roots ↔ ∃ function, program.function? id = some function ∧
        function.isRoot = true) ∧
      List.Forall₂ (program.IsCriticalPath profile analysis.bounds) roots analysis.paths := by
  refine ⟨(program.functions.entries.filter fun entry => entry.2.isRoot).map (·.1), ?_, ?_, ?_⟩
  · exact List.pairwise_map.mpr (program.functions.pairwise_entries.filter _)
  · intro id
    simp only [List.mem_map, List.mem_filter, Prod.exists, Arena.mem_entries]
    constructor
    · rintro ⟨_, function, ⟨found, isRoot⟩, rfl⟩
      exact ⟨function, found, isRoot⟩
    · rintro ⟨function, found, isRoot⟩
      exact ⟨id, function, ⟨found, isRoot⟩, rfl⟩
  · rw [analyze_paths analyzed]
    refine forall₂_filterMap fun entry listed => ?_
    obtain ⟨there, isRoot⟩ := List.mem_filter.mp listed
    exact exists_criticalPath analyzed (Arena.mem_entries.mp there) isRoot

/-- An entry point that calls two functions of the same cost, the one with the higher id first,
and a third one that costs nothing. Both lead to an exported function that calls itself. -/
def junction : Program where
  functions.slots := [
    some {
      name := entryPoint
      body := [.eval (.call ⟨2⟩ []), .eval (.call ⟨1⟩ []),
        .loop none (.exact 9) none [.eval (.call ⟨3⟩ [])]] },
    some { name := "left", body := [.eval (.call ⟨4⟩ [])] },
    some { name := "right", body := [.eval (.call ⟨4⟩ [])] },
    some { name := "idle" },
    some {
      name := "walk"
      body := [.branch (.lit (.ofBool true)) [.eval (.call ⟨4⟩ [])] [] none]
      exported := true
      recursionLimit := some 3 }]

/-- Measurements of `junction` with the largest frequency and with zero. -/
def junctionProfile : Profile :=
  (Profile.record {} entryPoint "idle" 18446744073709551615).record "left" "walk" 0

/-- The tie goes to the lower id, calls that cost nothing do not count however many there are, and
the path goes on where the only calls have frequency zero. -/
theorem analyze_paths_greedy_junction :
    ∃ analysis, junction.analyze (some junctionProfile) = .ok analysis ∧
      analysis.paths = [
        ⟨entryPoint, 237, [⟨⟨0⟩, entryPoint, 1⟩, ⟨⟨1⟩, "left", 1⟩, ⟨⟨4⟩, "walk", 0⟩]⟩,
        ⟨"walk", 39, [⟨⟨4⟩, "walk", 1⟩]⟩] ∧
      ∃ roots : List FunctionId, roots.Pairwise (fun first second => first.slot < second.slot) ∧
        (∀ id, id ∈ roots ↔ ∃ function, junction.function? id = some function ∧
          function.isRoot = true) ∧
        List.Forall₂ (junction.IsCriticalPath (some junctionProfile) analysis.bounds) roots
          analysis.paths := by
  obtain ⟨analysis, analyzed⟩ :
      ∃ analysis, junction.analyze (some junctionProfile) = .ok analysis := ⟨_, rfl⟩
  refine ⟨analysis, analyzed, ?_, analyze_paths_greedy analyzed⟩
  cases analyzed
  decide +kernel

end Program

end Timebound
