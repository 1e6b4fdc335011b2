import OpenQasm.Proofs.Building
import OpenQasm.Proofs.Provenance

/-! The definitions of a program have different names, none of them bound otherwise. -/
namespace OpenQasm

def ProgramItem.definedName? : ProgramItem → Option String
  | .gate signature _ => some signature.name
  | .subroutine signature _ => some signature.name
  | .bodilessGate signature => some signature.name
  | .register .. => none
  | .input _ => none
  | .statement _ => none

/-- The names of the gates and subroutines that a program defines, in order. -/
def Program.definitionNames (p : Program) : List String :=
  p.statements.filterMap ProgramItem.definedName?

/-- The names that are bound to something other than a registered operation. -/
def Scope.baseNames (s : Scope) : List String := reservedWords ++ s.includedNames ++ s.reserved

theorem Scope.boundNames_eq (s : Scope) :
    s.boundNames = s.baseNames ++ s.entries.map (·.name) := rfl

theorem Scope.freshName_notMem (s : Scope) (name : String) :
    s.freshName name ∉ s.baseNames ∧ s.freshName name ∉ s.entries.map (·.name) := by
  have h : s.freshName name ∉ s.boundNames := by
    rw [← binds_iff, binds_freshName]
    exact Bool.false_ne_true
  rwa [boundNames_eq, List.mem_append, not_or] at h

theorem Scope.binds_enrol {s : Scope} {name : String} (h : s.binds name = true)
    (op : Operation) : (s.enrol op).binds name = true := by
  rw [binds_iff, boundNames_eq, List.mem_append] at h ⊢
  rcases h with h | h
  · exact .inl h
  · apply Or.inr
    simp only [enrol, List.map_append, List.mem_append]
    exact .inl h

namespace Catalog

theorem scope_enter (k : Catalog) (op : Operation) : (k.enter op).scope = k.scope.enrol op := rfl

/-- The names of definitions differ from each other and from all names bound otherwise. -/
structure FreshlyNamed (k : Catalog) : Prop where
  entries : k.scope.entries.map (·.name) = k.definitions.map (·.name)
  distinct : (k.definitions.map (·.name)).Nodup
  free : ∀ name ∈ k.definitions.map (·.name), name ∉ k.scope.baseNames

theorem freshlyNamed_ofScope {s : Scope} (h : s.entries = []) : (ofScope s).FreshlyNamed := by
  refine ⟨?_, List.nodup_nil, ?_⟩
  · simp [ofScope, h]
  · intro name hname
    simp [ofScope] at hname

theorem FreshlyNamed.enter {k : Catalog} (h : k.FreshlyNamed) (op : Operation) :
    (k.enter op).FreshlyNamed := by
  obtain ⟨hbase, hentries⟩ := k.scope.freshName_notMem op.name
  rw [h.entries] at hentries
  refine ⟨?_, ?_, ?_⟩
  · simp [Catalog.enter, h.entries]
  · simp only [Catalog.enter, List.map_append, List.map_cons, List.map_nil]
    rw [List.nodup_append]
    refine ⟨h.distinct, by simp, ?_⟩
    intro name hname other hother
    rw [List.mem_singleton.mp hother]
    exact fun he => hentries (he ▸ hname)
  · intro name hname
    simp only [Catalog.enter, List.map_append, List.map_cons, List.map_nil, List.mem_append,
      List.mem_singleton] at hname
    rcases hname with hname | rfl
    · exact h.free name hname
    · exact hbase

theorem FreshlyNamed.enterAll {k : Catalog} (h : k.FreshlyNamed) (is : List Instruction) :
    (k.enterAll is).catalog.FreshlyNamed :=
  enterAll_induction (fun _ i _ _ _ hk => hk.enter i.operation) h

theorem baseNames_enterAll (k : Catalog) (is : List Instruction) :
    (k.enterAll is).catalog.scope.baseNames = k.scope.baseNames :=
  enterAll_induction (P := fun next => next.scope.baseNames = k.scope.baseNames)
    (fun _ _ _ _ _ hk => hk) rfl

end Catalog

theorem Scope.binds_foldl_reserve (names : List String) (s : Scope) (name : String) :
    (names.foldl reserve s).binds name = (s.binds name || names.contains name) := by
  induction names generalizing s with
  | nil => simp
  | cons first rest ih =>
    rw [List.foldl_cons, ih, binds_reserve, List.contains_cons, Bool.or_assoc]

/-- The words of the language, the included gates, the registers and the inputs are bound before
any operation is. -/
theorem mem_baseNames_globalScope {c : Circuit} {options : Options} {name : String}
    (h : name ∈ reservedWords ∨
      (standardInclude ∈ options.includes ∧ name ∈ StandardGate.includedNames) ∨
      name ∈ Session.globalNames c) :
    name ∈ (c.globalScope options).baseNames := by
  have hstd : (c.globalScope options).hasStandardGates =
      options.includes.contains standardInclude := hasStandardGates_foldl_reserve _ _
  rcases h with h | ⟨hinc, h⟩ | h
  · simp [Scope.baseNames, h]
  · simp [Scope.baseNames, Scope.includedNames, hstd, hinc, h]
  · have hbinds : (c.globalScope options).binds name = true := by
      rw [Circuit.globalScope, Scope.binds_foldl_reserve]
      simp [h]
    have hentries : (c.globalScope options).entries = [] := Catalog.entries_foldl_reserve _ _
    simpa [Scope.boundNames_eq, hentries] using Scope.binds_iff.mp hbinds

namespace Exported
variable {c : Circuit} {options : Options} {k : Catalog} {items : List ProgramItem}
  {statements : List Statement} (h : Exported c options k items statements)
include h

theorem freshlyNamed (hc : Identified (operationsOf c.instructions)) : k.FreshlyNamed := by
  have hentries : (c.globalScope options).entries = [] := Catalog.entries_foldl_reserve _ _
  have := (Catalog.freshlyNamed_ofScope hentries).enterAll
    (postorder (c.globalScope options).provides c.instructions)
  rwa [h.enterAll_eq hc] at this

theorem baseNames_eq (hc : Identified (operationsOf c.instructions)) :
    k.scope.baseNames = (c.globalScope options).baseNames := by
  have := Catalog.baseNames_enterAll (.ofScope (c.globalScope options))
    (postorder (c.globalScope options).provides c.instructions)
  rwa [h.enterAll_eq hc] at this

end Exported

theorem Definition.definedName?_of_lower {d : Definition} {s : Scope} {fold : Bool}
    {g : ProgramItem} (h : d.lower s fold = .ok g) : g.definedName? = some d.name := by
  obtain ⟨_, _, -, -, rfl⟩ | ⟨_, _, -, -, rfl⟩ | ⟨-, rfl⟩ := lower_eq_ok h <;> rfl

theorem filterMap_definedName?_of_lower {ds : List Definition} {items : List ProgramItem}
    {s : Scope} {fold : Bool} (h : List.Forall₂ (fun d g => d.lower s fold = .ok g) ds items) :
    items.filterMap ProgramItem.definedName? = ds.map (·.name) := by
  induction h with
  | nil => rfl
  | cons hg _ ih =>
    rw [List.filterMap_cons, Definition.definedName?_of_lower hg, List.map_cons, ih]

theorem filterMap_definedName?_declarations (c : Circuit) :
    c.declarations.filterMap ProgramItem.definedName? = [] := by
  simp [Circuit.declarations, List.filterMap_map, Function.comp_def, ProgramItem.definedName?]

theorem Exported.definitionNames_eq {c : Circuit} {options : Options} {k : Catalog}
    {items : List ProgramItem} {statements : List Statement} {p : Program}
    (h : Exported c options k items statements)
    (hp : p.statements = items ++ c.declarations ++ statements.map .statement) :
    p.definitionNames = k.definitions.map (·.name) := by
  have hrest : (statements.map ProgramItem.statement).filterMap ProgramItem.definedName? = [] := by
    simp [List.filterMap_map, Function.comp_def, ProgramItem.definedName?]
  rw [Program.definitionNames, hp, List.filterMap_append, List.filterMap_append,
    filterMap_definedName?_of_lower h.definitions, filterMap_definedName?_declarations, hrest,
    List.append_nil, List.append_nil]

/-- The definitions of a program have different names. None is a word of the language, an
included standard gate, a register of the circuit or one of its unbound symbols. -/
theorem definitionNames_distinct_and_free {c : Circuit} {options : Options} {p : Program}
    (hc : Identified (operationsOf c.instructions)) (h : c.toProgram options = .ok p) :
    p.definitionNames.Nodup ∧
      ∀ name ∈ p.definitionNames,
        name ∉ reservedWords ∧
        (standardInclude ∈ options.includes → name ∉ StandardGate.includedNames) ∧
        (∀ r ∈ c.qregs ++ c.cregs, r.name ≠ name) ∧
        name ∉ c.symbols := by
  have hbuild : (Session.start c options).build = ((Session.start c options).build.1, .ok p) :=
    Prod.ext rfl h
  obtain ⟨items, statements, hexp, hp⟩ := Session.exported_of_build hbuild
  have hfresh := hexp.freshlyNamed hc
  rw [hexp.definitionNames_eq hp]
  refine ⟨hfresh.distinct, ?_⟩
  intro name hname
  have hfree := hfresh.free name hname
  rw [hexp.baseNames_eq hc] at hfree
  refine ⟨fun hw => hfree (mem_baseNames_globalScope (.inl hw)),
    fun hinc hg => hfree (mem_baseNames_globalScope (.inr (.inl ⟨hinc, hg⟩))), ?_,
    fun hs => hfree (mem_baseNames_globalScope (.inr (.inr ?_)))⟩
  · rintro r hr rfl
    apply hfree
    apply mem_baseNames_globalScope
    refine .inr (.inr ?_)
    rw [Session.globalNames, ← List.map_append]
    exact List.mem_append_left _ (List.mem_map.mpr ⟨r, hr, rfl⟩)
  · exact List.mem_append_right _ hs

theorem Nested.circuit_definitionNames :
    ∃ p, circuit.toProgram .standard = .ok p ∧
      p.definitionNames = ["kick", "swap_1", "swap_2"] ∧ p.definitionNames.Nodup ∧
      ∀ name ∈ p.definitionNames, name ∉ StandardGate.includedNames := by
  obtain ⟨p, hp⟩ : ∃ p, circuit.toProgram .standard = .ok p := ⟨_, rfl⟩
  have hnames : (circuit.toProgram .standard).map Program.definitionNames =
      .ok ["kick", "swap_1", "swap_2"] := rfl
  rw [hp] at hnames
  obtain ⟨hnodup, hfree⟩ := definitionNames_distinct_and_free circuit_fromFactories.identified hp
  exact ⟨p, hp, Except.ok.inj hnames, hnodup, fun name hname => (hfree name hname).2.1 (by decide)⟩

end OpenQasm
