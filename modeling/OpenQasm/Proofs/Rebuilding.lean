import Mathlib.Logic.Function.Iterate
import OpenQasm.Proofs.DefinitionNames

/-! Building again in one session passes over what is there and adds nothing. -/
namespace OpenQasm

namespace Catalog

/-- A walk over a catalog that has all that the walk once entered enters nothing more and ends
as it did then. -/
theorem enterAll_of_entered {k later : Catalog} {is : List Instruction}
    (h : (k.enterAll is).catalog.keys ⊆ later.keys) :
    later.enterAll is = ⟨later, (k.enterAll is).failure⟩ := by
  induction is generalizing k with
  | nil => rfl
  | cons i rest ih =>
    rw [enterAll] at h ⊢
    rw [enterAll]
    cases hf : i.walkFault? with
    | some e => rfl
    | none =>
      rw [hf] at h
      dsimp only at h ⊢
      split at h
      · rename_i hk
        have hknown : i.operation.key ∈ later.keys := h (keys_subset_enterAll k rest hk)
        rw [if_pos hknown, if_pos hk]
        exact ih h
      · rename_i hk
        have hknown : i.operation.key ∈ later.keys :=
          h (keys_subset_enterAll (k.enter i.operation) rest (by simp))
        rw [if_pos hknown, if_neg hk]
        exact ih h

/-- Collecting again comes to the same catalog and the same failure. -/
theorem collectAll_again {ops : List Operation} (hops : Identified ops) {k : Catalog}
    (h : Ordered ops k) {is : List Instruction} (hsub : operationsOf is ⊆ ops) :
    (k.collectAll is).catalog.collectAll is = k.collectAll is := by
  have hwalk := collectAll_eq_enterAll hops h hsub
  have hprov := provides_enterAll k (postorder k.scope.provides is)
  rw [collectAll_eq_enterAll hops (h.collectAll hops hsub) hsub, hwalk, hprov,
    enterAll_of_entered (List.Subset.refl _)]

theorem binds_enterAll {k : Catalog} {name : String} (h : k.scope.binds name = true)
    (is : List Instruction) : (k.enterAll is).catalog.scope.binds name = true := by
  apply enterAll_induction (P := fun next => next.scope.binds name = true) _ h
  intro next i _ _ _ hnext
  rw [scope_enter]
  exact Scope.binds_enrol hnext i.operation

end Catalog

theorem Scope.foldl_reserve_of_bound {s : Scope} {names : List String}
    (h : ∀ name ∈ names, s.binds name = true) : names.foldl reserve s = s := by
  induction names with
  | nil => rfl
  | cons name rest ih =>
    have hname : s.reserve name = s := by
      rw [reserve, if_pos (h name List.mem_cons_self)]
    rw [List.foldl_cons, hname]
    exact ih fun other hother => h other (List.mem_cons_of_mem name hother)

namespace Session

/-- The session after a build and what came of it, where `n` builds went before in that session,
successful or not. -/
def buildAfter (s : Session) (n : Nat) : Session × Except ExportFailure Program :=
  ((fun s => s.build.1)^[n] s).build

theorem reserveGlobals_of_bound {k : Catalog} {c : Circuit}
    (h : ∀ name ∈ globalNames c, k.scope.binds name = true) : reserveGlobals k c = k := by
  rw [reserveGlobals, Scope.foldl_reserve_of_bound h]

/-- A session whose catalog has reserved and collected all that it will is left as it is. -/
theorem build_settled {s : Session} {collected : Collected}
    (hreserve : reserveGlobals collected.catalog s.circuit = collected.catalog)
    (hcollect : collected.catalog.collectAll s.circuit.instructions = collected)
    (hfirst : (reserveGlobals s.catalog s.circuit).collectAll s.circuit.instructions =
      collected)
    (hregs : checkRegisters s.circuit = .ok ()) : s.build.1.build = s.build := by
  have hbuild : s.build.1 = { s with catalog := collected.catalog } := by
    unfold build
    rw [hregs]
    dsimp only
    rw [hfirst]
    rcases collected with ⟨k, _ | e⟩ <;> rfl
  rw [hbuild]
  unfold build
  dsimp only
  rw [hregs]
  dsimp only
  rw [hreserve, hcollect, hfirst]

/-- The second build repeats the first. -/
theorem build_build {c : Circuit} (hc : Identified (operationsOf c.instructions))
    (options : Options) : (start c options).build.1.build = (start c options).build := by
  cases hregs : checkRegisters c with
  | error fault =>
    have hsame : (start c options).build = (start c options, .error (.general fault)) := by
      unfold build start
      rw [hregs]
    rw [hsame]
    exact hsame
  | ok =>
    have hord := c.ordered_globalScope options
    have hsub := List.Subset.refl (operationsOf c.instructions)
    have hagain := Catalog.collectAll_again hc hord hsub
    have hwalk := Catalog.collectAll_eq_enterAll hc hord hsub
    generalize hr : (Catalog.ofScope (c.globalScope options)).collectAll c.instructions =
      collected at hagain hwalk
    refine build_settled (reserveGlobals_of_bound ?_) hagain hr hregs
    intro name hname
    rw [hwalk]
    apply Catalog.binds_enterAll
    show (c.globalScope options).binds name = true
    rw [Circuit.globalScope, Scope.binds_foldl_reserve]
    have hmem : name ∈ globalNames c := hname
    simp [hmem]

/-- Building up to `n + 1` times in one session comes to what building once comes to. -/
theorem buildTimes_eq_build {c : Circuit} (hc : Identified (operationsOf c.instructions))
    (options : Options) (last : Program) (n : Nat) :
    (start c options).buildTimes last (n + 1) = (start c options).build := by
  have hagain := build_build hc options
  rw [buildTimes]
  generalize hfirst : (start c options).build = first at hagain
  rcases first with ⟨next, _ | p⟩
  · rfl
  · dsimp only at hagain ⊢
    induction n with
    | zero => rfl
    | succ n ih =>
      rw [buildTimes, hagain]
      exact ih

/-- However often a circuit is built in one session, each build gives the program or the error
that the first one gave and leaves the session, with its definitions and its scope, as the first
one left it. So does a series of builds that ends with its first failure. -/
theorem builds_agree {c : Circuit} (hc : Identified (operationsOf c.instructions))
    (options : Options) (n : Nat) :
    (start c options).buildAfter n = (start c options).build ∧
      ∀ last, (start c options).buildTimes last (n + 1) = (start c options).build := by
  refine ⟨?_, fun last => buildTimes_eq_build hc options last n⟩
  induction n with
  | zero => rfl
  | succ n ih =>
    unfold buildAfter at ih ⊢
    rw [Function.iterate_succ_apply', ih]
    exact build_build hc options

/-- A circuit that fails after some of its definitions are collected. -/
def halting : Circuit := ⟨"main", [⟨.quantum, "q", 1⟩], [], Catalog.Shared.lists.flatten⟩

theorem halting_builds_alike :
    Identified (operationsOf halting.instructions) ∧
      (start halting .standard).buildAfter 3 = (start halting .standard).build ∧
      ((start halting .standard).buildAfter 3).1.catalog.definitions.map (·.name) =
        ["leaf", "twice"] ∧
      ((start halting .standard).buildAfter 3).2.mapError ExportFailure.report =
        .error ⟨.unsupported, "unknown operation kind", "strange q[0]"⟩ := by
  obtain ⟨hsame, -⟩ := builds_agree (c := halting) Catalog.Shared.lists_identified .standard 3
  rw [hsame]
  exact ⟨Catalog.Shared.lists_identified, rfl, rfl, rfl⟩

end Session
end OpenQasm
