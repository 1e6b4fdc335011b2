import OpenQasm.Proofs.DefinitionNames
import OpenQasm.Proofs.Formals

/-! The program of a circuit, expanded, does the primitive steps of the expanded circuit. -/
namespace OpenQasm

theorem block_name_of_lower {d : Definition} {s : Scope} {fold : Bool} {g : ProgramItem}
    (h : d.lower s fold = .ok g) {b : Block} (hb : g.block? = some b) : b.name = d.name := by
  obtain ⟨_, _, -, -, rfl⟩ | ⟨_, _, -, -, rfl⟩ | ⟨-, rfl⟩ := Definition.lower_eq_ok h
  · obtain rfl := Option.some.inj hb
    rfl
  · obtain rfl := Option.some.inj hb
    rfl
  · simp [ProgramItem.block?] at hb

theorem find?_block_eq_none {ds : List Definition} {items : List ProgramItem} {s : Scope}
    {fold : Bool} (h : List.Forall₂ (fun d g => d.lower s fold = .ok g) ds items)
    {name : String} (hname : name ∉ ds.map (·.name)) :
    (items.filterMap ProgramItem.block?).find? (·.name == name) = none := by
  induction h with
  | nil => rfl
  | @cons d g ds items hg _ ih =>
    rw [List.map_cons, List.mem_cons, not_or] at hname
    rw [List.filterMap_cons]
    cases hb : g.block? with
    | none => exact ih hname.2
    | some b =>
      have hne : b.name ≠ name := by
        rw [block_name_of_lower hg hb]
        exact fun he => hname.1 he.symm
      simpa [hne] using ih hname.2

/-- The block of a definition is found by its name. -/
theorem find?_block_of_lower {ds : List Definition} {items : List ProgramItem} {s : Scope}
    {fold : Bool} (h : List.Forall₂ (fun d g => d.lower s fold = .ok g) ds items)
    (hnames : (ds.map (·.name)).Nodup) {d : Definition} (hd : d ∈ ds) :
    ∃ g, d.lower s fold = .ok g ∧
      (items.filterMap ProgramItem.block?).find? (·.name == d.name) = g.block? := by
  induction h with
  | nil => simp at hd
  | @cons e g ds items hg hrest ih =>
    rw [List.map_cons, List.nodup_cons] at hnames
    rw [List.filterMap_cons]
    rcases List.mem_cons.mp hd with rfl | hin
    · refine ⟨g, hg, ?_⟩
      cases hb : g.block? with
      | none => exact find?_block_eq_none hrest hnames.1
      | some b => simp [block_name_of_lower hg hb]
    · obtain ⟨g', hg', hfind⟩ := ih hnames.2 hin
      refine ⟨g', hg', ?_⟩
      cases hb : g.block? with
      | none => exact hfind
      | some b =>
        have hne : b.name ≠ d.name := by
          rw [block_name_of_lower hg hb]
          exact fun he => hnames.1 (he ▸ List.mem_map_of_mem hin)
        simpa [hne] using hfind

theorem Program.blocks_eq {p : Program} {items : List ProgramItem} {c : Circuit}
    {statements : List Statement}
    (hp : p.statements = items ++ c.declarations ++ statements.map .statement) :
    p.blocks = items.filterMap ProgramItem.block? := by
  have hdecl : c.declarations.filterMap ProgramItem.block? = [] := by
    simp [Circuit.declarations, List.filterMap_map, Function.comp_def, ProgramItem.block?]
  have hrest : (statements.map ProgramItem.statement).filterMap ProgramItem.block? = [] := by
    simp [List.filterMap_map, Function.comp_def, ProgramItem.block?]
  rw [blocks, hp, List.filterMap_append, List.filterMap_append, hdecl, hrest, List.append_nil,
    List.append_nil]

theorem Program.statements_eq {p : Program} {items : List ProgramItem} {c : Circuit}
    {statements : List Statement} {s : Scope} {fold : Bool} {ds : List Definition}
    (h : List.Forall₂ (fun d g => d.lower s fold = .ok g) ds items)
    (hp : p.statements = items ++ c.declarations ++ statements.map .statement) :
    p.statements.filterMap ProgramItem.statement? = statements := by
  have hitems : items.filterMap ProgramItem.statement? = [] := by
    clear hp
    induction h with
    | nil => rfl
    | cons hg _ ih =>
      obtain ⟨_, _, -, -, rfl⟩ | ⟨_, _, -, -, rfl⟩ | ⟨-, rfl⟩ := Definition.lower_eq_ok hg <;>
        exact ih
  have hdecl : c.declarations.filterMap ProgramItem.statement? = [] := by
    simp [Circuit.declarations, List.filterMap_map, Function.comp_def, ProgramItem.statement?]
  rw [hp, List.filterMap_append, List.filterMap_append, hitems, hdecl, List.filterMap_map]
  simp [Function.comp_def, ProgramItem.statement?]

/-- The name of an operation that is not provided is that of its definition. -/
theorem Catalog.Ordered.exists_of_name? {ops : List Operation} {k : Catalog} (h : k.Ordered ops)
    {op : Operation} (hprov : k.scope.provides op = false) {name : String}
    (hname : k.scope.name? op = some name) :
    ∃ d ∈ k.definitions, d.operation.key = op.key ∧ d.name = name := by
  rw [Scope.name?, hprov, h.entries, List.find?_map] at hname
  simp only [Bool.false_eq_true, if_false, Option.map_map, Option.map_eq_some_iff] at hname
  obtain ⟨d, hd, rfl⟩ := hname
  have hkey := List.find?_some hd
  exact ⟨d, List.mem_of_find?_eq_some hd, by simpa using hkey, rfl⟩

namespace Exported
variable {c : Circuit} {options : Options} {k : Catalog} {items : List ProgramItem}
  {statements : List Statement} {p : Program} (h : Exported c options k items statements)
  (hp : p.statements = items ++ c.declarations ++ statements.map .statement)
  (hc : c.FromFactories)
include h hc

/-- No definition takes the name of a gate that is provided. -/
theorem provided_name_free {op : Operation} (hop : op ∈ operationsOf c.instructions)
    (hprov : k.scope.provides op = true) : op.name ∉ k.definitions.map (·.name) := by
  intro hmem
  apply (h.freshlyNamed hc.identified).free _ hmem
  rw [h.baseNames_eq hc.identified]
  apply mem_baseNames_globalScope
  have hbuiltin := (h.provides_iff hc.identified op).mp hprov
  rcases hbuiltin.name_provided (hc.wellMade op hop) with hu | hin
  · rw [hu]
    exact .inl (by decide)
  · exact .inr (.inl hin)

/-- Operations that are called by one name have one key. -/
theorem key_eq_of_name? {a b : Operation} (ha : a ∈ operationsOf c.instructions)
    (hb : b ∈ operationsOf c.instructions) {name : String} (hna : k.scope.name? a = some name)
    (hnb : k.scope.name? b = some name) : a.key = b.key := by
  have hord := h.ordered hc.identified
  cases hpa : k.scope.provides a with
  | true =>
    obtain rfl := Scope.name_eq_of_provides hpa hna
    cases hpb : k.scope.provides b with
    | true =>
      have hstandard (o : Operation) (ho : k.scope.provides o = true) :
          o.key = .standard o.name := by
        have hbuiltin := (h.provides_iff hc.identified o).mp ho
        simp [Operation.key, hbuiltin.isStandard]
      rw [hstandard a hpa, hstandard b hpb, Scope.name_eq_of_provides hpb hnb]
    | false =>
      obtain ⟨d, hd, -, hdn⟩ := hord.exists_of_name? hpb hnb
      exact absurd (hdn ▸ List.mem_map_of_mem hd) (h.provided_name_free hc ha hpa)
  | false =>
    obtain ⟨d, hd, hdk, hdn⟩ := hord.exists_of_name? hpa hna
    cases hpb : k.scope.provides b with
    | true =>
      obtain rfl := Scope.name_eq_of_provides hpb hnb
      exact absurd (hdn ▸ List.mem_map_of_mem hd) (h.provided_name_free hc hb hpb)
    | false =>
      obtain ⟨e, he, hek, hen⟩ := hord.exists_of_name? hpb hnb
      have hde := List.inj_on_of_nodup_map (h.freshlyNamed hc.identified).distinct hd he
        (hdn.trans hen.symm)
      rw [← hdk, ← hek, hde]

include hp

/-- No block has the name of an operation without a body. -/
theorem no_block_of_bodiless {op : Operation} (hop : op ∈ operationsOf c.instructions)
    (hbody : op.body = none) {name : String} (hname : k.scope.name? op = some name) :
    p.blocks.find? (·.name == name) = none := by
  have hord := h.ordered hc.identified
  rw [Program.blocks_eq hp]
  cases hprov : k.scope.provides op with
  | true =>
    obtain rfl := Scope.name_eq_of_provides hprov hname
    exact find?_block_eq_none h.definitions (h.provided_name_free hc hop hprov)
  | false =>
    obtain ⟨d, hd, hkey, rfl⟩ := hord.exists_of_name? hprov hname
    have hnone : d.operation.body = none := by
      by_contra hsome
      have := hc.identified.eq_of_key (hord.mem d hd) hop hsome hkey.symm
      exact hsome (this ▸ hbody)
    obtain ⟨g, hg, hfind⟩ :=
      find?_block_of_lower h.definitions (h.freshlyNamed hc.identified).distinct hd
    have hform : d.form = .bodiless := by rw [hord.form d hd, Operation.form, hnone]
    rw [hfind]
    obtain ⟨_, _, hf, -, rfl⟩ | ⟨_, _, hf, -, rfl⟩ | ⟨-, rfl⟩ := Definition.lower_eq_ok hg
    · simp [hform] at hf
    · simp [hform] at hf
    · rfl

/-- The block of an operation with a body has the formals of the body and its statements. -/
theorem find?_block {op : Operation} (hop : op ∈ operationsOf c.instructions) {b : Circuit}
    (hb : op.body = some b) {name : String} (hname : k.scope.name? op = some name) :
    ∃ sts, b.lowered k.scope options.fold .flat = .ok sts ∧
      p.blocks.find? (·.name == name) = some ⟨name, b.symbols, b.qubitFormals, sts⟩ := by
  have hord := h.ordered hc.identified
  have hprov := hc.identified.provides_of_body hop (by simp [hb]) k.scope
  obtain ⟨d, hd, hkey, rfl⟩ := hord.exists_of_name? hprov hname
  obtain rfl := hc.identified.eq_of_key hop (hord.mem d hd) (by simp [hb]) hkey
  have hform := hord.form d hd
  obtain ⟨g, hg, hfind⟩ :=
    find?_block_of_lower h.definitions (h.freshlyNamed hc.identified).distinct hd
  rw [Program.blocks_eq hp, hfind]
  obtain ⟨body, sts, hf, hs, rfl⟩ | ⟨body, sts, hf, hs, rfl⟩ | ⟨hf, -⟩ :=
    Definition.lower_eq_ok hg
  · obtain rfl := Option.some.inj
      (hb.symm.trans (Operation.body_of_form (hform.symm.trans hf) (.inl rfl)))
    exact ⟨sts, hs, rfl⟩
  · obtain rfl := Option.some.inj
      (hb.symm.trans (Operation.body_of_form (hform.symm.trans hf) (.inr rfl)))
    refine ⟨sts, hs, ?_⟩
    simp [ProgramItem.block?, Function.comp_def]
  · have hnone := Operation.body_none_of_form (hform.symm.trans hf)
    simp [hnone] at hb

end Exported

/-- The placements are these primitives, one by one. -/
def Renders (name? : Operation → Option String) (fold : Bool) :
    List Placement → List Primitive → Prop :=
  List.Forall₂ fun s t => s.primitive? name? fold = some t

theorem Renders.append {name? : Operation → Option String} {fold : Bool}
    {ss ts : List Placement} {us vs : List Primitive} (h : Renders name? fold ss us)
    (h' : Renders name? fold ts vs) : Renders name? fold (ss ++ ts) (us ++ vs) :=
  List.rel_append h h'

theorem Renders.under {name? : Operation → Option String} {fold : Bool} {ss : List Placement}
    {ts : List Primitive} (h : Renders name? fold ss ts) {cond : Condition} {test : Equality}
    (htest : cond.equation? = some test) :
    Renders name? fold (ss.map (Placement.under (some cond))) (ts.map (Primitive.under test)) := by
  rw [Renders, List.forall₂_map_left_iff, List.forall₂_map_right_iff]
  exact h.imp fun s t hst => Placement.primitive?_under_some htest hst

theorem Renders.single {name? : Operation → Option String} {fold : Bool} {s : Placement}
    {action : Action} (hconditions : s.conditions = []) (h : s.action? name? fold = some action) :
    Renders name? fold [s] [⟨[], action⟩] := by
  refine .cons (Placement.primitive?_eq_some.mpr ⟨?_, h⟩) .nil
  rw [hconditions]
  rfl

/-- The expansion succeeds, and renders the placements. -/
def ExpandsTo (name? : Operation → Option String) (fold : Bool) (ss : List Placement)
    (expansion : Option (List Primitive)) : Prop :=
  ∃ prims, expansion = some prims ∧ Renders name? fold ss prims

/-- Statements expand to what instructions flatten to if each statement does. -/
theorem expandsTo_expandAll {call : CallKind → Call → Option (List Primitive)}
    {name? : Operation → Option String} {fold : Bool} {f : Frame} {is : List Instruction}
    {sts : List Statement}
    (h : List.Forall₂ (fun i st => ExpandsTo name? fold (i.flatten f) (st.expand call)) is sts) :
    ExpandsTo name? fold (flattenAll f is) (expandAll call sts) := by
  induction h with
  | nil => exact ⟨[], rfl, .nil⟩
  | cons hst _ ih =>
    obtain ⟨first, hfirst, hrfirst⟩ := hst
    obtain ⟨others, hothers, hrothers⟩ := ih
    refine ⟨first ++ others, expandAll_cons_eq_some hfirst hothers, ?_⟩
    rw [flattenAll]
    exact hrfirst.append hrothers

theorem instantiateAll_eq_map (a : Binding) (sts : List Statement) :
    instantiateAll a sts = sts.map (·.instantiate a) := by
  induction sts with
  | nil => rfl
  | cons st rest ih => rw [instantiateAll, ih, List.map_cons]

theorem Frame.Matches.operands {f : Frame} {a : Binding} {c : Circuit} {naming : Naming}
    {fold : Bool} (hm : f.Matches a c naming fold) {kind : BitKind} {bits : List Bit}
    (hbits : ∀ b ∈ bits, c.Holds kind b) (os : List Operand)
    (h : List.Forall₂ (fun b o => b.operand naming = .ok o) bits os) :
    os.map (·.instantiate a) = (bits.map f.bit).map Bit.reference := by
  induction h with
  | nil => rfl
  | @cons b o bits os ho _ ih =>
    rw [List.map_cons, List.map_cons, List.map_cons,
      hm.bit kind b o (hbits b List.mem_cons_self) ho,
      ih fun x hx => hbits x (List.mem_cons_of_mem b hx)]

theorem Frame.Matches.parameters {f : Frame} {a : Binding} {c : Circuit} {naming : Naming}
    {fold : Bool} (hm : f.Matches a c naming fold) {i : Instruction} (hi : i ∈ c.instructions) :
    (i.operation.params.map (Parameter.expression fold)).map (·.instantiate a) =
      (i.operation.params.map f.parameter).map (Parameter.argument fold) := by
  rw [List.map_map, List.map_map]
  exact List.map_congr_left fun p hp => hm.parameter i hi p hp

/-- How calls of an operation are written. -/
def Operation.CalledAs (op : Operation) (kind : CallKind) : Prop :=
  match kind with
  | .gate => op.kind = .gate
  | .subroutine => op.kind = .subroutine

/-- The call that an instruction stands for within a frame. -/
def Instruction.callIn (i : Instruction) (f : Frame) (fold : Bool) (name : String) : Call :=
  ⟨name, (i.operation.params.map f.parameter).map (Parameter.argument fold),
    (i.qubits.map f.bit).map Bit.reference⟩

/-- The calls of an instruction within a frame expand to what the instruction flattens to. -/
def Instruction.CallsExpand (i : Instruction) (blocks : List Block) (fuel : Nat) (s : Scope)
    (fold : Bool) (f : Frame) : Prop :=
  ∀ kind name, i.operation.CalledAs kind → s.name? i.operation = some name →
    ExpandsTo s.name? fold (i.unguarded.flatten f)
      (expandCall blocks fuel kind (i.callIn f fold name))

/-- The statement of an instruction expands to what the instruction flattens to, if its calls
do. -/
theorem expandsTo_of_lowered {blocks : List Block} {fuel : Nat} {s : Scope} {fold : Bool}
    {naming : Naming} {f : Frame} {a : Binding} {c : Circuit} (hm : f.Matches a c naming fold)
    {i : Instruction} (hi : i ∈ c.instructions) (hplaced : c.WellPlaced i)
    (hmade : i.operation.WellMade) {st : Statement}
    (h : Lowered s fold naming i.operation i.qubits i.clbits st)
    (hcall : i.CallsExpand blocks fuel s fold f) :
    ExpandsTo s.name? fold (i.unguarded.flatten f)
      ((st.instantiate a).expand (expandCall blocks fuel)) := by
  have hbodiless (hk : ¬ i.operation.IsCalled) : i.unguarded.operation.body = none := by
    by_contra hsome
    obtain ⟨b, hb⟩ := Option.ne_none_iff_exists'.mp hsome
    exact hk (hmade.body b hb).1
  have hqubits := hm.operands hplaced.qubits
  have hclbits := hm.operands hplaced.clbits
  -- a measurement fixes the shape of both lists of bits
  generalize hqs : i.qubits = qs at h
  generalize hcs : i.clbits = cs at h
  rw [hqs] at hqubits
  rw [hcs] at hclbits
  cases h with
  | gate kind resolved placed =>
    obtain ⟨prims, hexp, hr⟩ := hcall .gate _ kind resolved
    refine ⟨prims, ?_, hr⟩
    rw [Statement.instantiate, Statement.expand, Call.instantiate, hm.parameters hi,
      hqubits _ placed, ← hqs]
    exact hexp
  | subroutine kind resolved placed =>
    obtain ⟨prims, hexp, hr⟩ := hcall .subroutine _ kind resolved
    refine ⟨prims, ?_, hr⟩
    rw [Statement.instantiate, Statement.expand, Call.instantiate, hm.parameters hi,
      hqubits _ placed, ← hqs]
    exact hexp
  | barrier kind placed =>
    refine ⟨_, by rw [Statement.instantiate, Statement.expand, hqubits _ placed], ?_⟩
    rw [flatten_of_bodiless (hbodiless (by simp [Operation.IsCalled, kind]))]
    refine Renders.single rfl ?_
    simp [Placement.action?, Placement.under, Instruction.unguarded, kind, hqs]
  | @measurement q b target o kind target_eq qubit_eq =>
    have hq := hqubits _ (.cons qubit_eq .nil)
    have hb := hclbits _ (.cons target_eq .nil)
    simp only [List.map_cons, List.map_nil, List.cons.injEq, and_true] at hq hb
    refine ⟨[⟨[], .measure (f.bit b).reference [(f.bit q).reference]⟩], ?_, ?_⟩
    · rw [Statement.instantiate, Statement.expand, hb, List.map_cons, List.map_nil, hq]
    · rw [flatten_of_bodiless (hbodiless (by simp [Operation.IsCalled, kind]))]
      refine Renders.single rfl ?_
      simp [Placement.action?, Placement.under, Instruction.unguarded, kind, hqs, hcs]

theorem Instruction.unguarded_of_unconditioned {i : Instruction} (h : i.condition = none) :
    i.unguarded = i := by
  obtain ⟨operation, qubits, clbits, condition⟩ := i
  obtain rfl : condition = none := h
  rfl

/-- The statements of a circuit without conditions expand to what the circuit flattens to, if the
calls of its instructions do. -/
theorem expandsTo_of_body_lowered {blocks : List Block} {fuel : Nat} {s : Scope} {fold : Bool}
    {naming : Naming} {f : Frame} {a : Binding} {c : Circuit} (hm : f.Matches a c naming fold)
    (hregular : c.Regular) (hmade : ∀ i ∈ c.instructions, i.operation.WellMade)
    (hplain : ∀ i ∈ c.instructions, i.condition = none) {sts : List Statement}
    (h : c.lowered s fold naming = .ok sts)
    (hcall : ∀ i ∈ c.instructions, i.CallsExpand blocks fuel s fold f) :
    ExpandsTo s.name? fold (flattenAll f c.instructions)
      (expandAll (expandCall blocks fuel) (instantiateAll a sts)) := by
  rw [instantiateAll_eq_map]
  apply expandsTo_expandAll
  rw [List.forall₂_map_right_iff]
  refine ((List.forall₂_and_left _ _).mpr ⟨fun _ hi => hi, Circuit.lowered_eq_ok.mp h⟩).imp ?_
  rintro i st ⟨hi, hst⟩
  obtain ⟨-, hlow⟩ | ⟨_, _, _, hsome, -⟩ := Instruction.lower_eq_ok hst
  · have := expandsTo_of_lowered hm hi (hregular.placed i hi) (hmade i hi) hlow (hcall i hi)
    rwa [Instruction.unguarded_of_unconditioned (hplain i hi)] at this
  · simp [hplain i hi] at hsome

/-- Circuits made by the factories whose bodies act on qubits alone: they have no classical
registers and no conditions. -/
structure Circuit.Inlinable (c : Circuit) : Prop where
  made : c.FromFactories
  quantum : ∀ b ∈ c.bodies, b.cregs = []
  unconditioned : ∀ b ∈ c.bodies, ∀ i ∈ b.instructions, i.condition = none
  sized : ∀ b ∈ c.bodies, b.qubitTotal < UInt64.size

theorem Circuit.length_allQubits (c : Circuit) : c.allQubits.length = c.qubitTotal := by
  rw [← c.length_qubitFormals, c.qubitFormals_eq, List.length_map]

namespace Exported
variable {c : Circuit} {options : Options} {k : Catalog} {items : List ProgramItem}
  {statements : List Statement} {p : Program} (h : Exported c options k items statements)
  (hp : p.statements = items ++ c.declarations ++ statements.map .statement) (hc : c.Inlinable)
include h hp hc

theorem callsExpand_of_bodiless {i : Instruction}
    (hop : i.operation ∈ operationsOf c.instructions) (hb : i.operation.body = none) (fuel : Nat)
    (f : Frame) : i.CallsExpand p.blocks fuel k.scope options.fold f := by
  intro kind name hkind hname
  have hfind := h.no_block_of_bodiless hp hc.made hop hb hname
  refine ⟨_, expandCall_of_no_block hfind fuel kind, ?_⟩
  have hbu : i.unguarded.operation.body = none := hb
  rw [flatten_of_bodiless hbu]
  refine Renders.single rfl ?_
  cases kind with
  | gate =>
    have hk : i.operation.kind = .gate := hkind
    simp [Placement.action?, Placement.call, Placement.under, Instruction.unguarded,
      Instruction.callIn, hk, hname]
  | subroutine => exact absurd hb ((hc.made.wellMade _ hop).subroutine hkind)

/-- The calls of an operation with a body expand as they should, if those in the body do with one
unit of fuel less. -/
theorem callsExpand_of_body {i : Instruction} (hop : i.operation ∈ operationsOf c.instructions)
    (hcount : i.qubits.length = i.operation.qubitCount.toNat) {b : Circuit}
    (hb : i.operation.body = some b) {fuel : Nat}
    (hcalls : ∀ j ∈ b.instructions, ∀ f, j.CallsExpand p.blocks fuel k.scope options.fold f)
    (f : Frame) : i.CallsExpand p.blocks (fuel + 1) k.scope options.fold f := by
  intro kind name _ hname
  obtain ⟨-, hparams, hqubits⟩ := (hc.made.wellMade _ hop).body b hb
  have hmem := Circuit.mem_bodies hop hb
  have hregular := hc.made.regular_body _ hop b hb
  obtain ⟨sts, hs, hfind⟩ := h.find?_block hp hc.made hop hb hname
  have htotal : b.qubitTotal = i.qubits.length := by
    rw [hcount, hqubits, Circuit.qubitCount_toNat (hc.sized b hmem)]
  have hcalled : p.blocks.find? (·.name == (i.callIn f options.fold name).name) =
      some ⟨name, b.symbols, b.qubitFormals, sts⟩ := hfind
  have hbu : i.unguarded.operation.body = some b := hb
  have hflat : i.unguarded.flatten f =
      flattenAll (.ofBody b (i.operation.params.map f.parameter) (i.qubits.map f.bit))
        b.instructions :=
    (flatten_of_body hbu f).trans (List.map_id _)
  have hmatch := Frame.matches_ofBody hregular (hc.quantum b hmem)
    (show b.symbols.length = (i.operation.params.map f.parameter).length by simp [hparams])
    (show b.allQubits.length = (i.qubits.map f.bit).length by simp [b.length_allQubits, htotal])
    options.fold
  rw [expandCall_of_block hcalled (by simp [Instruction.callIn, hparams])
    (by simp [Instruction.callIn, b.length_qubitFormals, htotal]), hflat]
  refine expandsTo_of_body_lowered hmatch hregular ?_ (hc.unconditioned b hmem) hs
    fun j hj => hcalls j hj _
  intro j hj
  have hin : j ∈ i.operation.inner := by rwa [Operation.inner_of_body hb]
  exact hc.made.wellMade _ (operationsOf_inner_subset hop (operation_mem_operationsOf hin))

/-- The calls of an instruction expand as they should, with as much fuel as there are definitions
up to that of its operation. -/
theorem callsExpand (i : Instruction) (hop : i.operation ∈ operationsOf c.instructions)
    (hcount : i.qubits.length = i.operation.qubitCount.toNat) {fuel : Nat}
    (hearlier : i.operation.IsCalled → k.scope.provides i.operation = false →
      ∃ (m : Nat) (d : Definition),
        m < fuel ∧ k.definitions[m]? = some d ∧ d.operation.key = i.operation.key)
    (f : Frame) : i.CallsExpand p.blocks fuel k.scope options.fold f := by
  have hord := h.ordered hc.made.identified
  -- the instructions of a body are smaller, and what they call is defined earlier
  induction i using Instruction.nested_induction generalizing f fuel with
  | step i ih =>
    cases hb : i.operation.body with
    | none => exact h.callsExpand_of_bodiless hp hc hop hb fuel f
    | some b =>
      have hprov := hc.made.identified.provides_of_body hop (by simp [hb]) k.scope
      have hcalled := ((hc.made.wellMade _ hop).body b hb).1
      obtain ⟨m, d, hm, hd, hkey⟩ := hearlier hcalled hprov
      have hdop := hc.made.identified.eq_of_key hop (hord.mem d (List.mem_of_getElem? hd))
        (by simp [hb]) hkey
      obtain ⟨rest, rfl⟩ : ∃ rest, fuel = rest + 1 := ⟨fuel - 1, by omega⟩
      refine h.callsExpand_of_body hp hc hop hcount hb (fun j hj => ?_) f
      have hin : j ∈ i.operation.inner := by rwa [Operation.inner_of_body hb]
      have hjop := operationsOf_inner_subset hop (operation_mem_operationsOf hin)
      have hplaced := (hc.made.regular_body _ hop b hb).placed j hj
      refine ih j hin hjop hplaced.qubit_count ?_
      intro hjcalled hjprov
      have hwalk : j ∈ postorder k.scope.provides d.operation.inner := by
        rw [hdop]
        exact mem_postorder.mpr ⟨j, hin, mem_postorder_self hjcalled hjprov⟩
      obtain ⟨n, e, hn, he, hek⟩ := hord.callee_earlier hd hwalk
      exact ⟨n, e, by omega, he, hek⟩

end Exported

theorem Condition.equation?_of_equality {cond : Condition} {c : Circuit} {test : Equality}
    (h : cond.equality c .indexed = .ok test) : cond.equation? = some test := by
  obtain ⟨hequal, ⟨r, _, htarget, -, -, rfl⟩ | ⟨b, o, htarget, -, ho, rfl⟩⟩ := equality_eq_ok h
  · rw [equation?, if_pos hequal, htarget]
  · rw [equation?, if_pos hequal, htarget, Bit.operand_indexed ho]

theorem instantiate_empty_of_lowered {s : Scope} {fold : Bool} {naming : Naming} {op : Operation}
    {qubits clbits : List Bit} {st : Statement} (h : Lowered s fold naming op qubits clbits st) :
    st.instantiate .empty = st := by
  cases h <;> simp [Statement.instantiate, Call.instantiate]

theorem flatten_eq_unguarded (i : Instruction) (f : Frame) :
    i.flatten f = (i.unguarded.flatten f).map (Placement.under i.condition) := by
  cases hb : i.operation.body with
  | none =>
    have hbu : i.unguarded.operation.body = none := hb
    rw [flatten_of_bodiless hb, flatten_of_bodiless hbu]
    rfl
  | some b =>
    have hbu : i.unguarded.operation.body = some b := hb
    rw [flatten_of_body hb, flatten_of_body hbu, List.map_map]
    rfl

/-- The primitives that placements are rendered by are determined. -/
theorem Renders.unique {name? : Operation → Option String} {fold : Bool} {ss : List Placement}
    {ts us : List Primitive} (h : Renders name? fold ss ts) (h' : Renders name? fold ss us) :
    ts = us :=
  List.right_unique_forall₂' (fun _ _ _ hb hc => Option.some.inj (hb.symm.trans hc)) h h'

/-- The statement of an instruction of the circuit expands to what the instruction flattens to. -/
theorem Exported.expandsTo_statement {c : Circuit} {options : Options} {k : Catalog}
    {items : List ProgramItem} {statements : List Statement} {p : Program}
    (h : Exported c options k items statements)
    (hp : p.statements = items ++ c.declarations ++ statements.map .statement)
    (hc : c.Inlinable) {fuel : Nat} (hfuel : k.definitions.length ≤ fuel) {i : Instruction}
    (hi : i ∈ c.instructions) {st : Statement}
    (hst : i.lower c k.scope options.fold .indexed = .ok st) :
    ExpandsTo k.scope.name? options.fold (i.flatten .outermost)
      (st.expand (expandCall p.blocks fuel)) := by
  have hop := operation_mem_operationsOf hi
  have hplaced := hc.made.regular.placed i hi
  have hcalls : i.CallsExpand p.blocks fuel k.scope options.fold .outermost := by
    refine h.callsExpand hp hc i hop hplaced.qubit_count ?_ _
    intro hcalled hprov
    obtain ⟨m, d, hm, hd, hkey⟩ := h.callee_defined hc.made.identified hi hcalled hprov
    exact ⟨m, d, by omega, hd, hkey⟩
  have hlowered (body : Statement)
      (hlow : Lowered k.scope options.fold .indexed i.operation i.qubits i.clbits body) :
      ExpandsTo k.scope.name? options.fold (i.unguarded.flatten .outermost)
        (body.expand (expandCall p.blocks fuel)) := by
    have := expandsTo_of_lowered (Frame.matches_outermost c options.fold) hi hplaced
      (hc.made.wellMade _ hop) hlow hcalls
    rwa [instantiate_empty_of_lowered hlow] at this
  obtain ⟨hnone, hlow⟩ | ⟨cond, test, body, hcond, htest, hlow, rfl⟩ :=
    Instruction.lower_eq_ok hst
  · have := hlowered st hlow
    rwa [Instruction.unguarded_of_unconditioned hnone] at this
  · obtain ⟨prims, hexp, hr⟩ := hlowered body hlow
    refine ⟨prims.map (Primitive.under test), ?_, ?_⟩
    · simp [Statement.expand, expandAll, hexp]
    · rw [flatten_eq_unguarded, hcond]
      exact hr.under (Condition.equation?_of_equality htest)

/-- The program of a circuit expands, whatever the fuel beyond its length, to the primitives that
the circuit flattens to, each called by the name of its operation. Operations that are called by
one name are the same standard gate or have the same identity. -/
theorem expand_program_eq_flatten_circuit {c : Circuit} {options : Options} {s : Session}
    {p : Program} (hc : c.Inlinable) (h : (Session.start c options).build = (s, .ok p)) :
    ∃ prims, (∀ fuel, p.statements.length ≤ fuel → p.expand fuel = some prims) ∧
      List.Forall₂ (fun placement primitive =>
        placement.primitive? s.catalog.scope.name? options.fold = some primitive) c.flatten prims ∧
      ∀ a ∈ operationsOf c.instructions, ∀ b ∈ operationsOf c.instructions, ∀ name,
        s.catalog.scope.name? a = some name → s.catalog.scope.name? b = some name →
          a.key = b.key := by
  obtain ⟨items, statements, hexp, hp⟩ := Session.exported_of_build h
  have hlen : s.catalog.definitions.length ≤ p.statements.length := by
    rw [hexp.definitions.length_eq, hp]
    simp
  have hexpand (fuel : Nat) (hfuel : p.statements.length ≤ fuel) :
      ExpandsTo s.catalog.scope.name? options.fold c.flatten (p.expand fuel) := by
    rw [Program.expand, Program.statements_eq hexp.definitions hp]
    apply expandsTo_expandAll
    refine ((List.forall₂_and_left _ _).mpr ⟨fun _ hi => hi, hexp.instructions⟩).imp ?_
    rintro i st ⟨hi, hst⟩
    exact hexp.expandsTo_statement hp hc (Nat.le_trans hlen hfuel) hi hst
  obtain ⟨prims, -, hr⟩ := hexpand _ (Nat.le_refl _)
  refine ⟨prims, ?_, hr, ?_⟩
  · intro fuel hfuel
    obtain ⟨prims', hexp', hr'⟩ := hexpand fuel hfuel
    rw [hexp', hr.unique hr']
  · intro a ha b hb name hna hnb
    exact hexp.key_eq_of_name? hc.made ha hb hna hnb

namespace Nested

def half : Binary64 := ⟨0x3fe0000000000000⟩

def physical : Bit := ⟨.quantum, none, 7⟩

def halfChain : Operation := ⟨.subroutine, "swap", 2, 0, [.value half], some chain, none, 6⟩

/-- A circuit that calls the subroutine with a number, on a qubit of a register and a physical one.
The number reaches the gate without a body through two symbols. -/
def halfCircuit : Circuit :=
  ⟨"main", [⟨.quantum, "q", 2⟩], [⟨.classical, "c", 1⟩],
    [⟨readout, [q 0], [⟨.classical, some "c", 0⟩], none⟩,
      ⟨halfChain, [q 1, physical], [], some ⟨.register ⟨.classical, "c", 1⟩, .equal, 1⟩⟩,
      ⟨kick, [q 0], [], none⟩]⟩

theorem halfCircuit_inlinable : halfCircuit.Inlinable := by
  have hchain : chain.Built (· ∈ [readout, chainCall, fence, pairGate, cx, kick]) :=
    chain_built.mono fun op hop => List.mem_cons_of_mem _ (List.mem_cons_of_mem _ hop)
  have hhalfChain : chain.asSubroutine 6 (some [.value half]) = .ok halfChain := rfl
  have hhistory := history.cons (by decide) (.subroutine hchain hhalfChain)
  have hbuilt : halfCircuit.Built
      (· ∈ [halfChain, readout, chainCall, fence, pairGate, cx, kick]) :=
    (((Circuit.Built.ofSizes "main" 2 1).append
      (i := ⟨readout, [q 0], [⟨.classical, some "c", 0⟩], none⟩) (by simp) rfl).append
      (i := ⟨halfChain, [q 1, physical], [], some ⟨.register ⟨.classical, "c", 1⟩, .equal, 1⟩⟩)
        (by simp) rfl).append
      (i := ⟨kick, [q 0], [], none⟩) (by simp) rfl
  exact ⟨⟨_, hhistory, hbuilt⟩, by decide, by decide, by decide⟩

/-- What the circuit does, primitive by primitive. -/
def halfPrimitives : List Primitive :=
  let on (index : UInt64) : Operand := ⟨"q", some index⟩
  let loose : Operand := ⟨"$7", none⟩
  let test : Equality := ⟨.identifier "c", .integer 1⟩
  let kicked (angle : Expression) (qubit : Operand) : Action :=
    .call .gate ⟨"kick", [angle], [qubit]⟩
  let crossed (control target : Operand) : Action := .call .gate ⟨"cx", [], [control, target]⟩
  [⟨[], .measure ⟨"c", some 0⟩ [on 0]⟩, ⟨[test], kicked (.real half true) (on 1)⟩,
    ⟨[test], crossed (on 1) loose⟩, ⟨[test], .barrier [on 1, loose]⟩,
    ⟨[test], kicked (.real half true) loose⟩, ⟨[test], crossed loose (on 1)⟩,
    ⟨[], kicked (.identifier "theta") (on 0)⟩]

theorem halfCircuit_expands :
    halfCircuit.Inlinable ∧
      ∃ s p, (Session.start halfCircuit .standard).build = (s, .ok p) ∧
        (∀ fuel, p.statements.length ≤ fuel → p.expand fuel = some halfPrimitives) ∧
        List.Forall₂ (fun placement primitive =>
          placement.primitive? s.catalog.scope.name? true = some primitive)
          halfCircuit.flatten halfPrimitives := by
  obtain ⟨s, p, h⟩ : ∃ s p, (Session.start halfCircuit .standard).build = (s, .ok p) :=
    ⟨_, _, rfl⟩
  obtain ⟨prims, hexpand, hrender, -⟩ :=
    expand_program_eq_flatten_circuit halfCircuit_inlinable h
  have hlength : (halfCircuit.toProgram .standard).toOption.map (·.statements.length) = some 9 := by
    decide
  have hprims : (halfCircuit.toProgram .standard).toOption.bind (·.expand 9) =
      some halfPrimitives := by
    decide
  have hprogram : halfCircuit.toProgram .standard = .ok p := congrArg Prod.snd h
  rw [hprogram] at hlength hprims
  have hsame := hexpand 9 (Option.some.inj hlength).le
  obtain rfl : prims = halfPrimitives := Option.some.inj (hsame.symm.trans hprims)
  exact ⟨halfCircuit_inlinable, s, p, h, hexpand, hrender⟩

end Nested
end OpenQasm
