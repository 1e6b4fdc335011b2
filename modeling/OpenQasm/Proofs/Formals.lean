import OpenQasm.Proofs.Expansion
import OpenQasm.Proofs.Separators

/-! The formals of a body and the arguments that a call puts in their place. -/
namespace OpenQasm

theorem append_cons_inj {α : Type} {a : α} {xs ys us vs : List α} (hus : a ∉ us) (hvs : a ∉ vs)
    (h : xs ++ a :: us = ys ++ a :: vs) : xs = ys ∧ us = vs := by
  rcases List.append_eq_append_iff.mp h with ⟨ws, rfl, hw⟩ | ⟨ws, rfl, hw⟩
  · cases ws with
    | nil => simpa using hw
    | cons w rest =>
      obtain ⟨-, rfl⟩ := List.cons.inj hw
      simp at hus
  · cases ws with
    | nil => simpa [eq_comm] using hw
    | cons w rest =>
      obtain ⟨-, rfl⟩ := List.cons.inj hw
      simp at hvs

theorem underscore_notMem_digits (n : Nat) : '_' ∉ (toString n).toList := by
  intro h
  rw [Nat.toString_eq_repr, Nat.toList_repr] at h
  have := Nat.isDigit_of_mem_toDigits (by decide) (by decide) h
  exact absurd this (by decide)

theorem formalName_inj {r s : String} {m n : Nat} (h : formalName r m = formalName s n) :
    r = s ∧ m = n := by
  have hlist := congrArg String.toList h
  simp only [formalName, String.toList_append, List.append_assoc] at hlist
  obtain ⟨hr, hn⟩ := append_cons_inj (underscore_notMem_digits m) (underscore_notMem_digits n) hlist
  exact ⟨String.toList_inj.mp hr, Nat.repr_injective (String.toList_inj.mp hn)⟩

/-- The formal name of a bit of a register. -/
def Bit.flatName (b : Bit) : String := formalName (b.register.getD "") b.index.toNat

theorem Register.toNat_ofNat_index {r : Register} {i : Nat} (h : i < r.size.toNat) :
    (UInt64.ofNat i).toNat = i :=
  UInt64.toNat_ofNat_of_lt' (Nat.lt_trans h r.size.toNat_lt)

namespace Circuit
variable {c : Circuit}

theorem qubitFormals_eq (c : Circuit) : c.qubitFormals = c.allQubits.map Bit.flatName := by
  rw [qubitFormals, allQubits, List.map_flatMap]
  congr 1
  funext r
  rw [Register.bits, List.map_map]
  apply List.map_congr_left
  intro i hi
  simp only [Function.comp_apply, Bit.flatName, Register.element, Option.getD_some]
  rw [Register.toNat_ofNat_index (List.mem_range.mp hi)]

theorem mem_allQubits {b : Bit} :
    b ∈ c.allQubits ↔ ∃ r ∈ c.qregs, b = r.element b.index ∧ b.index < r.size := by
  simp only [allQubits, List.mem_flatMap, Register.bits, List.mem_map, List.mem_range]
  constructor
  · rintro ⟨r, hr, i, hi, rfl⟩
    refine ⟨r, hr, rfl, ?_⟩
    rw [UInt64.lt_iff_toNat_lt, Register.element, Register.toNat_ofNat_index hi]
    exact hi
  · rintro ⟨r, hr, hb, hlt⟩
    refine ⟨r, hr, b.index.toNat, UInt64.lt_iff_toNat_lt.mp hlt, ?_⟩
    rw [UInt64.ofNat_toNat]
    exact hb.symm

/-- A qubit of a register of the circuit is among its qubits. -/
theorem Regular.mem_allQubits (h : c.Regular) {b : Bit} (hb : c.Holds .quantum b)
    {name : String} (hname : b.register = some name) : b ∈ c.allQubits := by
  obtain ⟨hkind, hreg⟩ := hb
  obtain ⟨r, hr, hrk, rfl, hlt⟩ := hreg name hname
  rcases List.mem_append.mp hr with hr | hr
  · refine Circuit.mem_allQubits.mpr ⟨r, hr, ?_, hlt⟩
    obtain ⟨kind, register, index⟩ := b
    obtain rfl : kind = .quantum := hkind
    obtain rfl : register = some r.name := hname
    rw [Register.element, hrk]
  · exact absurd hrk (h.classical r hr)

theorem Regular.flatName_inj (h : c.Regular) {a b : Bit} (ha : a ∈ c.allQubits)
    (hb : b ∈ c.allQubits) (he : a.flatName = b.flatName) : a = b := by
  obtain ⟨r, hr, hra, -⟩ := Circuit.mem_allQubits.mp ha
  obtain ⟨s, hs, hsb, -⟩ := Circuit.mem_allQubits.mp hb
  rw [hra, hsb] at he ⊢
  obtain ⟨hname, hindex⟩ := formalName_inj he
  have hrk := h.quantum r hr
  have hsk := h.quantum s hs
  simp only [Register.element, Option.getD_some] at hname
  simp only [Register.element, Bit.mk.injEq, hrk, hsk, hname, true_and]
  exact UInt64.toNat_inj.mp hindex

end Circuit

/-- Lookup by the formal name of a key gives the value of the key, if the formal names of the keys
differ and there are as many values. -/
theorem lookup_zip_map {α β γ δ : Type} [DecidableEq α] [DecidableEq γ] {g : α → γ} {h : β → δ}
    {keys : List α} (hinj : ∀ x ∈ keys, ∀ y ∈ keys, g x = g y → x = y) {values : List β}
    (hlen : keys.length = values.length) {key : α} (hkey : key ∈ keys) :
    ∃ value, (keys.zip values).lookup key = some value ∧
      ((keys.map g).zip (values.map h)).lookup (g key) = some (h value) := by
  induction keys generalizing values with
  | nil => simp at hkey
  | cons first rest ih =>
    cases values with
    | nil => simp at hlen
    | cons value others =>
      by_cases he : key = first
      · subst he
        exact ⟨value, by simp, by simp⟩
      · have hne : g key ≠ g first := fun hg => he (hinj key hkey first List.mem_cons_self hg)
        have hin : key ∈ rest := (List.mem_cons.mp hkey).resolve_left he
        have hrest : ∀ x ∈ rest, ∀ y ∈ rest, g x = g y → x = y := fun x hx y hy =>
          hinj x (List.mem_cons_of_mem first hx) y (List.mem_cons_of_mem first hy)
        obtain ⟨v, hv, hgv⟩ := ih hrest (by simpa using hlen) hin
        refine ⟨v, ?_, ?_⟩
        · simpa [List.lookup_cons, beq_false_of_ne he] using hv
        · simpa [List.lookup_cons, beq_false_of_ne hne] using hgv

/-- What stands in a program for the bits and parameters of a circuit is what its frame says,
once the arguments are in place of the formals. -/
structure Frame.Matches (f : Frame) (a : Binding) (c : Circuit) (naming : Naming) (fold : Bool) :
    Prop where
  bit : ∀ kind b o, c.Holds kind b → b.operand naming = .ok o →
    o.instantiate a = (f.bit b).reference
  parameter : ∀ i ∈ c.instructions, ∀ p ∈ i.operation.params,
    (p.expression fold).instantiate a = (f.parameter p).argument fold

theorem Circuit.mem_symbols {c : Circuit} {i : Instruction} (hi : i ∈ c.instructions)
    {name : String} (h : .symbol name ∈ i.operation.params) : name ∈ c.symbols := by
  rw [symbols, List.mem_eraseDups, List.mem_flatMap]
  exact ⟨i, hi, List.mem_filterMap.mpr ⟨_, h, rfl⟩⟩

/-- A bit with a flat name, in a circuit without classical registers, is one of its qubits. -/
theorem Circuit.Regular.operand_flat {body : Circuit} (hbody : body.Regular)
    (hcregs : body.cregs = []) {kind : BitKind} {b : Bit} {o : Operand}
    (hb : body.Holds kind b) (ho : b.operand .flat = .ok o) :
    b ∈ body.allQubits ∧ o = ⟨b.flatName, none⟩ := by
  cases hr : b.register with
  | none =>
    simp only [Bit.operand, hr] at ho
    split at ho <;> simp at ho
  | some name =>
    obtain ⟨r, hreg, hrk, hrn, hlt⟩ := hb.2 name hr
    rw [hcregs, List.append_nil] at hreg
    have hquantum : body.Holds .quantum b := by
      rw [← hbody.quantum r hreg, hrk]
      exact hb
    refine ⟨hbody.mem_allQubits hquantum hr, ?_⟩
    simpa [Bit.operand, hr, Bit.flatName, eq_comm] using ho

/-- A block with the formals of a body, called with what a frame gives, matches the frame. -/
theorem Frame.matches_ofBody {body : Circuit} (hbody : body.Regular) (hcregs : body.cregs = [])
    {params : List Parameter} {qubits : List Bit}
    (hparams : body.symbols.length = params.length)
    (hqubits : body.allQubits.length = qubits.length) (fold : Bool) :
    (Frame.ofBody body params qubits).Matches
      ⟨body.symbols.zip (params.map (Parameter.argument fold)),
        body.qubitFormals.zip (qubits.map Bit.reference)⟩ body .flat fold := by
  constructor
  · intro kind b o hb ho
    obtain ⟨hmem, rfl⟩ := hbody.operand_flat hcregs hb ho
    obtain ⟨q, hq, hflat⟩ := lookup_zip_map (h := Bit.reference)
      (fun x hx y hy => hbody.flatName_inj hx hy) hqubits hmem
    simp [Operand.instantiate, Frame.bit, Frame.ofBody, body.qubitFormals_eq, hq, hflat]
  · intro i hi p hp
    cases p with
    | value x => rfl
    | symbol name =>
      obtain ⟨q, hq, hexpr⟩ := lookup_zip_map (g := id) (h := Parameter.argument fold)
        (fun x _ y _ he => he) hparams (Circuit.mem_symbols hi hp)
      rw [List.map_id, id] at hexpr
      have hleft : ((Parameter.symbol name).expression fold).instantiate
          ⟨body.symbols.zip (params.map (Parameter.argument fold)),
            body.qubitFormals.zip (qubits.map Bit.reference)⟩ = q.argument fold := by
        simp [Parameter.expression, Expression.instantiate, hexpr]
      rw [hleft, Frame.parameter, Frame.ofBody, hq, Option.getD_some]

/-- At the top level there is nothing to put in place of anything. -/
def Binding.empty : Binding := ⟨[], []⟩

@[simp] theorem Operand.instantiate_empty (o : Operand) : o.instantiate .empty = o := by
  obtain ⟨name, _ | index⟩ := o <;> rfl

@[simp] theorem Expression.instantiate_empty (e : Expression) : e.instantiate .empty = e := by
  cases e with
  | operand o => simp [instantiate]
  | integer _ => rfl
  | real _ _ => rfl
  | identifier _ => rfl

/-- A bit of the circuit is written as it is referred to. -/
theorem Bit.operand_indexed {b : Bit} {o : Operand} (h : b.operand .indexed = .ok o) :
    o = b.reference := by
  unfold operand at h
  unfold reference
  cases hr : b.register with
  | some name => simpa [hr, eq_comm] using h
  | none =>
    simp only [hr] at h
    split at h
    · simp at h
    · simpa [text, hr, eq_comm] using h

/-- A parameter of the circuit is written as the argument that it is. -/
theorem Parameter.expression_eq_argument (fold : Bool) (p : Parameter) :
    p.expression fold = p.argument fold := by
  cases p <;> rfl

theorem Frame.matches_outermost (c : Circuit) (fold : Bool) :
    Frame.outermost.Matches .empty c .indexed fold := by
  constructor
  · intro kind b o hb ho
    rw [Operand.instantiate_empty, Frame.bit_outermost, Bit.operand_indexed ho]
  · intro i hi p hp
    rw [Expression.instantiate_empty, Frame.parameter_outermost, p.expression_eq_argument]

end OpenQasm
