import Mathlib.Data.List.Induction
import Mathlib.Data.List.Nodup
import OpenQasm.Proofs.DefinitionNames

/-! Scopes over time: different names and slots, and answers that are never taken back. -/
namespace OpenQasm

/-- A change that a scope can be asked for. -/
inductive ScopeCall where
  | reserve (name : String)
  | register (op : Operation)

/-- A standard gate goes by its own name. -/
def Operation.TagNamed (op : Operation) : Prop := ∀ g ∈ op.standard, op.name = g.name

instance (op : Operation) : Decidable op.TagNamed :=
  inferInstanceAs (Decidable (∀ g ∈ op.standard, op.name = g.name))

def ScopeCall.TagNamed : ScopeCall → Prop
  | .reserve _ => True
  | .register op => op.TagNamed

instance : DecidablePred ScopeCall.TagNamed
  | .reserve _ => inferInstanceAs (Decidable True)
  | .register op => inferInstanceAs (Decidable op.TagNamed)

/-- The key of an operation that needs no definition. -/
def Scope.providesKey (s : Scope) : OperationKey → Bool
  | .standard name => name == "U" || s.includedNames.contains name
  | .custom _ => false

theorem StandardGate.eq_U_iff (g : StandardGate) : g = .U ↔ g.name = "U" := by
  cases g <;> simp [name]

namespace Scope

/-- The scope in which a call ends, also when it fails. -/
def after (s : Scope) : ScopeCall → Scope
  | .reserve name => s.reserve name
  | .register op => (registration op).after s

def afterAll (s : Scope) (calls : List ScopeCall) : Scope := calls.foldl after s

/-- The names of the registered operations, slot by slot. -/
def registeredNames (s : Scope) : List String := s.entries.map (·.name)

def registeredKeys (s : Scope) : List OperationKey := s.entries.map (·.key)

@[simp] theorem afterAll_nil (s : Scope) : s.afterAll [] = s := rfl

@[simp] theorem afterAll_append (s : Scope) (xs ys : List ScopeCall) :
    s.afterAll (xs ++ ys) = (s.afterAll xs).afterAll ys :=
  List.foldl_append

@[simp] theorem afterAll_singleton (s : Scope) (call : ScopeCall) :
    s.afterAll [call] = s.after call := rfl

/-- What each call keeps, a whole run keeps. -/
theorem afterAll_induction {P : Scope → Prop} {calls : List ScopeCall}
    (step : ∀ s, ∀ call ∈ calls, P s → P (s.after call)) {s : Scope} (h : P s) :
    P (s.afterAll calls) := by
  induction calls generalizing s with
  | nil => exact h
  | cons call rest ih =>
    apply ih
    · intro later other hother
      exact step later other (List.mem_cons_of_mem call hother)
    · exact step s call List.mem_cons_self h

/-- Whether a scope provides an operation shows in the operation's key. -/
theorem provides_eq_providesKey (s : Scope) {op : Operation} (h : op.TagNamed) :
    s.provides op = s.providesKey op.key := by
  cases hs : op.standard with
  | none => simp [provides, hs, Operation.key_of_custom hs, providesKey]
  | some g =>
    have hname : op.name = g.name := h g hs
    rw [Operation.key_of_standard hs, Bool.eq_iff_iff]
    simp [provides, hs, providesKey, hname, g.eq_U_iff]

theorem key_of_provides {s : Scope} {op : Operation} (h : s.provides op = true) :
    op.key = .standard op.name := by
  have hs : op.standard.isSome := by
    simp only [provides, Bool.or_eq_true, Bool.and_eq_true, beq_iff_eq] at h
    rcases h with h | h
    · simp [h]
    · exact h.1
  rw [Operation.key, if_pos hs]

/-- An operation is known exactly if it has a name. -/
theorem knows_iff_resolve (s : Scope) (op : Operation) :
    s.knows op = true ↔ ∃ name, s.resolve op = .ok name := by
  have hname : s.knows op = (s.name? op).isSome := by
    unfold knows name? slot?
    cases s.provides op with
    | true => simp
    | false => simp [List.findIdx?_isSome, List.isSome_find?]
  rw [hname, Option.isSome_iff_exists]
  exact exists_congr fun name => resolve_eq_ok.symm

theorem resolve_of_provides {s : Scope} {op : Operation} (h : s.provides op = true) :
    s.resolve op = .ok op.name := by
  simp [resolve, name?, h]

theorem register_known {s : Scope} {op : Operation} {name : String}
    (h : s.resolve op = .ok name) : s.register op = .ok (s, name) := by
  have hknown := (s.knows_iff_resolve op).mpr ⟨name, h⟩
  rw [register_eq, if_pos hknown, h]
  rfl

theorem register_unnamed {s : Scope} {op : Operation} (h : s.knows op = false)
    (hname : op.name.isEmpty = true) : s.register op = .error (.unnamedOperation op.kind) := by
  simp [register_eq, h, hname]

theorem register_new {s : Scope} {op : Operation} (h : s.knows op = false)
    (hname : op.name.isEmpty = false) :
    s.register op = .ok (s.enrol op, s.freshName op.name) := by
  simp [register_eq, h, hname]

theorem after_register_of_ok {s t : Scope} {op : Operation} {name : String}
    (h : s.register op = .ok (t, name)) : s.after (.register op) = t := by
  unfold register at h
  cases hrun : (registration op).run s with
  | ok name' t' =>
    simp only [hrun, Except.ok.injEq, Prod.mk.injEq] at h
    simp only [after, InPlace.after, hrun, h.1]
  | error fault t' => simp [hrun] at h

/-- A registration that fails leaves the scope as it was. -/
theorem after_register_of_error {s : Scope} {op : Operation} {fault : Fault}
    (h : s.register op = .error fault) : s.after (.register op) = s := by
  unfold register at h
  cases hrun : (registration op).run s with
  | ok name t => simp [hrun] at h
  | error fault' t =>
    obtain rfl := (atomic_registration op).eq_of_run hrun
    simp only [after, InPlace.after, hrun]

theorem after_register_known {s : Scope} {op : Operation} (h : s.knows op = true) :
    s.after (.register op) = s := by
  obtain ⟨name, hname⟩ := (s.knows_iff_resolve op).mp h
  exact after_register_of_ok (register_known hname)

theorem after_register_unnamed {s : Scope} {op : Operation} (h : s.knows op = false)
    (hname : op.name.isEmpty = true) : s.after (.register op) = s :=
  after_register_of_error (register_unnamed h hname)

theorem after_register_new {s : Scope} {op : Operation} (h : s.knows op = false)
    (hname : op.name.isEmpty = false) : s.after (.register op) = s.enrol op :=
  after_register_of_ok (register_new h hname)

/-- A call changes nothing, reserves a name that was free or gives an operation that was not
known the next slot. -/
theorem after_cases (s : Scope) (call : ScopeCall) :
    s.after call = s ∨
      (∃ name, call = .reserve name ∧
        s.after call = { s with reserved := s.reserved ++ [name] }) ∨
      ∃ op, call = .register op ∧ s.knows op = false ∧ s.after call = s.enrol op := by
  cases call with
  | reserve name =>
    rw [after, reserve]
    split
    · exact .inl rfl
    · exact .inr (.inl ⟨name, rfl, rfl⟩)
  | register op =>
    cases hk : s.knows op with
    | true => exact .inl (after_register_known hk)
    | false =>
      cases hn : op.name.isEmpty with
      | true => exact .inl (after_register_unnamed hk hn)
      | false => exact .inr (.inr ⟨op, rfl, hk, after_register_new hk hn⟩)

theorem includedNames_after (s : Scope) (call : ScopeCall) :
    (s.after call).includedNames = s.includedNames := by
  obtain h | ⟨_, -, h⟩ | ⟨_, -, -, h⟩ := s.after_cases call <;> rw [h] <;> rfl

theorem entries_prefix_after (s : Scope) (call : ScopeCall) :
    s.entries <+: (s.after call).entries := by
  obtain h | ⟨_, -, h⟩ | ⟨_, -, -, h⟩ := s.after_cases call
  · simp [h]
  · simp [h]
  · rw [h]
    exact List.prefix_append _ _

theorem binds_after {s : Scope} {name : String} (h : s.binds name = true) (call : ScopeCall) :
    (s.after call).binds name = true := by
  rw [binds_iff] at h ⊢
  obtain hs | ⟨_, -, hs⟩ | ⟨_, -, -, hs⟩ := s.after_cases call
  · rwa [hs]
  · rw [hs]
    simp only [boundNames, includedNames, List.mem_append] at h ⊢
    tauto
  · rw [hs, ← binds_iff]
    exact binds_enrol (binds_iff.mpr h) _

/-- Registered operations have names and keys of their own, apart from those of the language and
of the included gates. -/
structure Coherent (s : Scope) : Prop where
  names : s.registeredNames.Nodup
  keys : s.registeredKeys.Nodup
  free : ∀ name ∈ s.registeredNames, name ∉ reservedWords ∧ name ∉ s.includedNames
  unprovided : ∀ key ∈ s.registeredKeys, s.providesKey key = false

theorem coherent_ofIncludes (includes : List String) : (ofIncludes includes).Coherent where
  names := List.nodup_nil
  keys := List.nodup_nil
  free _ h := absurd h List.not_mem_nil
  unprovided _ h := absurd h List.not_mem_nil

theorem notMem_registeredKeys {s : Scope} {op : Operation} (h : s.knows op = false) :
    op.key ∉ s.registeredKeys := by
  intro hmem
  obtain ⟨e, he, hk⟩ := List.mem_map.mp hmem
  simp only [knows, slot?, Bool.or_eq_false_iff, List.findIdx?_isSome, List.any_eq_false] at h
  exact h.2 e he (by simp [hk])

namespace Coherent
variable {s : Scope}

/-- An operation that was not known takes a new name along with its new key. -/
theorem enrol (h : s.Coherent) {op : Operation} (htag : op.TagNamed) (hnew : s.knows op = false) :
    (s.enrol op).Coherent := by
  obtain ⟨hbase, hentries⟩ := s.freshName_notMem op.name
  have hkey := notMem_registeredKeys hnew
  have hprov : s.providesKey op.key = false := by
    rw [← s.provides_eq_providesKey htag]
    simp only [knows, Bool.or_eq_false_iff] at hnew
    exact hnew.1
  have hnames : (s.enrol op).registeredNames = s.registeredNames ++ [s.freshName op.name] := by
    simp [registeredNames, Scope.enrol]
  have hkeys : (s.enrol op).registeredKeys = s.registeredKeys ++ [op.key] := by
    simp [registeredKeys, Scope.enrol]
  constructor
  · rw [hnames, List.nodup_append_comm]
    exact List.nodup_cons.mpr ⟨hentries, h.names⟩
  · rw [hkeys, List.nodup_append_comm]
    exact List.nodup_cons.mpr ⟨hkey, h.keys⟩
  · rw [hnames]
    intro name hname
    rcases List.mem_append.mp hname with hname | hname
    · exact h.free name hname
    · rw [List.mem_singleton.mp hname]
      simp only [baseNames, List.mem_append, not_or] at hbase
      exact hbase.1
  · rw [hkeys]
    intro key hk
    rcases List.mem_append.mp hk with hk | hk
    · exact h.unprovided key hk
    · rw [List.mem_singleton.mp hk]
      exact hprov

theorem after (h : s.Coherent) {call : ScopeCall} (htag : call.TagNamed) :
    (s.after call).Coherent := by
  obtain hs | ⟨_, -, hs⟩ | ⟨op, rfl, hnew, hs⟩ := s.after_cases call
  · rwa [hs]
  · rw [hs]
    exact ⟨h.names, h.keys, h.free, h.unprovided⟩
  · rw [hs]
    exact h.enrol htag hnew

theorem afterAll (h : s.Coherent) {calls : List ScopeCall} (htag : ∀ call ∈ calls, call.TagNamed) :
    (s.afterAll calls).Coherent :=
  afterAll_induction (fun _ call hcall hs => hs.after (htag call hcall)) h

/-- The slot of an operation is the position of its key. -/
theorem slot?_eq_some (h : s.Coherent) {op : Operation} {n : Nat} :
    s.slot? op = some n ↔ s.registeredKeys[n]? = some op.key := by
  have hget (m : Nat) : s.registeredKeys[m]? = s.entries[m]?.map (·.key) := List.getElem?_map
  rw [slot?, List.findIdx?_eq_some_iff_getElem, hget]
  constructor
  · rintro ⟨hn, hk, -⟩
    simpa [hn] using hk
  · intro hk
    obtain ⟨e, he, hkey⟩ := Option.map_eq_some_iff.mp hk
    obtain ⟨hn, hen⟩ := List.getElem?_eq_some_iff.mp he
    refine ⟨hn, by simpa [hen] using hkey, ?_⟩
    intro m hm hme
    have hlt : m < s.registeredKeys.length := by
      simp only [registeredKeys, List.length_map]
      omega
    have hsame : s.registeredKeys[m]? = s.registeredKeys[n]? := by
      rw [hget, hget, he, Option.map_some, hkey, List.getElem?_eq_getElem (by omega),
        Option.map_some]
      simpa using hme
    have := (List.getElem?_inj hlt h.keys).mp hsame
    omega

/-- An operation that is not provided has the name that is entered with its key. -/
theorem resolve_eq_ok_iff (h : s.Coherent) {op : Operation} (hprov : s.provides op = false)
    {name : String} : s.resolve op = .ok name ↔ ⟨op.key, name⟩ ∈ s.entries := by
  rw [resolve_eq_ok, name?, hprov]
  simp only [Bool.false_eq_true, if_false, Option.map_eq_some_iff]
  constructor
  · rintro ⟨e, he, rfl⟩
    have hkey : e.key = op.key := by simpa using List.find?_some he
    rw [← hkey]
    exact List.mem_of_find?_eq_some he
  · intro hmem
    cases hf : s.entries.find? (·.key == op.key) with
    | none => exact absurd (List.find?_eq_none.mp hf _ hmem) (by simp)
    | some e =>
      have hkey : e.key = op.key := by simpa using List.find?_some hf
      have he := List.inj_on_of_nodup_map h.keys (List.mem_of_find?_eq_some hf) hmem hkey
      exact ⟨e, rfl, by rw [he]⟩

/-- A registered name tells the key that it was given to, and a key the name. -/
theorem key_eq_iff_name_eq (h : s.Coherent) {e f : ScopeEntry} (he : e ∈ s.entries)
    (hf : f ∈ s.entries) : e.name = f.name ↔ e.key = f.key := by
  constructor
  · intro hname
    rw [List.inj_on_of_nodup_map h.names he hf hname]
  · intro hkey
    rw [List.inj_on_of_nodup_map h.keys he hf hkey]

/-- What is provided has neither the name nor the key of anything registered. -/
theorem ne_of_provides (h : s.Coherent) {op : Operation} (htag : op.TagNamed)
    (hprov : s.provides op = true) {e : ScopeEntry} (he : e ∈ s.entries) :
    op.name ≠ e.name ∧ op.key ≠ e.key := by
  have hkey : s.providesKey op.key = true := by rwa [← s.provides_eq_providesKey htag]
  constructor
  · intro hname
    obtain ⟨hword, hinc⟩ := h.free e.name (List.mem_map_of_mem he)
    rw [key_of_provides hprov, hname] at hkey
    simp only [providesKey, Bool.or_eq_true, beq_iff_eq, List.contains_iff_mem] at hkey
    rcases hkey with hu | hin
    · rw [hu] at hword
      exact hword (by decide)
    · exact hinc hin
  · intro hsame
    rw [hsame, h.unprovided e.key (List.mem_map_of_mem he)] at hkey
    exact absurd hkey Bool.false_ne_true

/-- Two known operations are called by one name exactly if they have one key. -/
theorem resolve_eq_iff_key_eq (h : s.Coherent) {a b : Operation} (hatag : a.TagNamed)
    (hbtag : b.TagNamed) (ha : s.knows a = true) (hb : s.knows b = true) :
    s.resolve a = s.resolve b ↔ a.key = b.key := by
  obtain ⟨m, hm⟩ := (s.knows_iff_resolve a).mp ha
  obtain ⟨n, hn⟩ := (s.knows_iff_resolve b).mp hb
  rw [hm, hn, Except.ok.injEq]
  cases hap : s.provides a with
  | true =>
    obtain rfl := Except.ok.inj ((resolve_of_provides hap).symm.trans hm)
    cases hbp : s.provides b with
    | true =>
      obtain rfl := Except.ok.inj ((resolve_of_provides hbp).symm.trans hn)
      rw [key_of_provides hap, key_of_provides hbp, OperationKey.standard.injEq]
    | false =>
      obtain ⟨hname, hkey⟩ := h.ne_of_provides hatag hap ((h.resolve_eq_ok_iff hbp).mp hn)
      exact iff_of_false hname hkey
  | false =>
    have hma := (h.resolve_eq_ok_iff hap).mp hm
    cases hbp : s.provides b with
    | true =>
      obtain rfl := Except.ok.inj ((resolve_of_provides hbp).symm.trans hn)
      obtain ⟨hname, hkey⟩ := h.ne_of_provides hbtag hbp hma
      exact iff_of_false hname.symm hkey.symm
    | false => exact h.key_eq_iff_name_eq hma ((h.resolve_eq_ok_iff hbp).mp hn)

theorem slot?_of_provides (h : s.Coherent) {op : Operation} (htag : op.TagNamed)
    (hprov : s.provides op = true) : s.slot? op = none := by
  by_contra hne
  obtain ⟨n, hn⟩ := Option.ne_none_iff_exists'.mp hne
  have hmem := List.mem_of_getElem? (h.slot?_eq_some.mp hn)
  rw [s.provides_eq_providesKey htag, h.unprovided _ hmem] at hprov
  exact absurd hprov Bool.false_ne_true

end Coherent

theorem entries_prefix_afterAll (s : Scope) (calls : List ScopeCall) :
    s.entries <+: (s.afterAll calls).entries :=
  afterAll_induction (P := fun later => s.entries <+: later.entries)
    (fun later call _ hlater => hlater.trans (later.entries_prefix_after call))
    (List.prefix_refl _)

theorem includedNames_afterAll (s : Scope) (calls : List ScopeCall) :
    (s.afterAll calls).includedNames = s.includedNames :=
  afterAll_induction (P := fun later => later.includedNames = s.includedNames)
    (fun later call _ hlater => (later.includedNames_after call).trans hlater) rfl

theorem provides_afterAll (s : Scope) (calls : List ScopeCall) (op : Operation) :
    (s.afterAll calls).provides op = s.provides op := by
  simp only [provides, includedNames_afterAll]

theorem binds_afterAll {s : Scope} {name : String} (h : s.binds name = true)
    (calls : List ScopeCall) : (s.afterAll calls).binds name = true :=
  afterAll_induction (P := fun later => later.binds name = true)
    (fun _ call _ hlater => binds_after hlater call) h

/-- A name that a run reserves is bound at its end. -/
theorem binds_of_reserve_mem {s : Scope} {name : String} {calls : List ScopeCall}
    (h : .reserve name ∈ calls) : (s.afterAll calls).binds name = true := by
  obtain ⟨before, rest, rfl⟩ := List.append_of_mem h
  rw [afterAll_append]
  refine binds_afterAll (s := (s.afterAll before).after (.reserve name)) ?_ rest
  simp [after, binds_reserve]

/-- What a scope says of an operation that it knows, it says for good. -/
theorem Coherent.stable {s : Scope} (h : s.Coherent) {op : Operation} (htag : op.TagNamed)
    (hknown : s.knows op = true) {later : List ScopeCall}
    (hlater : ∀ call ∈ later, call.TagNamed) :
    (s.afterAll later).knows op = true ∧ (s.afterAll later).resolve op = s.resolve op ∧
      (s.afterAll later).slot? op = s.slot? op := by
  have ht := h.afterAll hlater
  have hpre := s.entries_prefix_afterAll later
  have hprov := s.provides_afterAll later op
  obtain ⟨name, hname⟩ := (s.knows_iff_resolve op).mp hknown
  cases hp : s.provides op with
  | true =>
    rw [hp] at hprov
    have hsame : (s.afterAll later).resolve op = s.resolve op := by
      rw [resolve_of_provides hp, resolve_of_provides hprov]
    have hslot : (s.afterAll later).slot? op = s.slot? op := by
      rw [h.slot?_of_provides htag hp, ht.slot?_of_provides htag hprov]
    exact ⟨(knows_iff_resolve _ op).mpr ⟨name, hsame.trans hname⟩, hsame, hslot⟩
  | false =>
    rw [hp] at hprov
    have hentry := (h.resolve_eq_ok_iff hp).mp hname
    have hsame : (s.afterAll later).resolve op = s.resolve op := by
      rw [hname, ht.resolve_eq_ok_iff hprov]
      exact hpre.subset hentry
    refine ⟨(knows_iff_resolve _ op).mpr ⟨name, hsame.trans hname⟩, hsame, ?_⟩
    obtain ⟨n, hn⟩ := List.mem_iff_getElem?.mp hentry
    have hkey : s.registeredKeys[n]? = some op.key := by
      rw [registeredKeys, List.getElem?_map, hn, Option.map_some]
    have hlater : (s.afterAll later).registeredKeys[n]? = some op.key := by
      obtain ⟨added, hadded⟩ := hpre
      have hlt := (List.getElem?_eq_some_iff.mp hn).1
      rw [registeredKeys, List.getElem?_map, ← hadded, List.getElem?_append_left hlt, hn,
        Option.map_some]
    rw [h.slot?_eq_some.mpr hkey, ht.slot?_eq_some.mpr hlater]

/-- Every slot was given to an operation that was not known before. -/
theorem exists_registration (s : Scope) (hs : s.entries = []) (calls : List ScopeCall) :
    ∀ (n : Nat) (e : ScopeEntry), (s.afterAll calls).entries[n]? = some e →
      ∃ before op rest, calls = before ++ .register op :: rest ∧
        (s.afterAll before).knows op = false ∧
        e = ⟨op.key, (s.afterAll before).freshName op.name⟩ := by
  induction calls using List.reverseRecOn with
  | nil =>
    intro n e he
    simp [hs] at he
  | append_singleton calls call ih =>
    intro n e he
    rw [afterAll_append, afterAll_singleton] at he
    have hold (hn : (s.afterAll calls).entries[n]? = some e) :
        ∃ before op rest, calls ++ [call] = before ++ .register op :: rest ∧
          (s.afterAll before).knows op = false ∧
          e = ⟨op.key, (s.afterAll before).freshName op.name⟩ := by
      obtain ⟨before, op, rest, hcalls, hrest⟩ := ih n e hn
      exact ⟨before, op, rest ++ [call], by simp [hcalls], hrest⟩
    obtain h | ⟨_, -, h⟩ | ⟨op, hcall, hnew, h⟩ := (s.afterAll calls).after_cases call
    · rw [h] at he
      exact hold he
    · rw [h] at he
      exact hold he
    · rw [h, enrol, List.getElem?_append] at he
      split at he
      · exact hold he
      · have he := List.mem_of_getElem? he
        exact ⟨calls, op, [], by rw [hcall], hnew, List.mem_singleton.mp he⟩

/-- The operation that was given a slot has that slot and the name entered there, which no call
before its registration reserved. -/
theorem exists_owner {s : Scope} (h : s.Coherent) (hs : s.entries = []) {calls : List ScopeCall}
    (hcalls : ∀ call ∈ calls, call.TagNamed) {n : Nat} (hn : n < (s.afterAll calls).size) :
    ∃ before op rest name, calls = before ++ .register op :: rest ∧
      (s.afterAll before).knows op = false ∧ (s.afterAll calls).slot? op = some n ∧
      (s.afterAll calls).resolve op = .ok name ∧
      (s.afterAll calls).registeredNames[n]? = some name ∧ .reserve name ∉ before := by
  have ht := h.afterAll hcalls
  have he := List.getElem?_eq_getElem hn
  obtain ⟨before, op, rest, hsplit, hnew, hentry⟩ := s.exists_registration hs calls n _ he
  rw [hentry] at he
  have hprov : (s.afterAll calls).provides op = false := by
    simp only [knows, provides_afterAll, Bool.or_eq_false_iff] at hnew
    rw [provides_afterAll]
    exact hnew.1
  refine ⟨before, op, rest, _, hsplit, hnew, ht.slot?_eq_some.mpr ?_,
    (ht.resolve_eq_ok_iff hprov).mpr (List.mem_of_getElem? he), ?_, ?_⟩
  · rw [registeredKeys, List.getElem?_map, he, Option.map_some]
  · rw [registeredNames, List.getElem?_map, he, Option.map_some]
  · intro hmem
    have hbound := binds_of_reserve_mem (s := s) hmem
    rw [binds_freshName] at hbound
    exact Bool.false_ne_true hbound

/-- Whatever a scope was asked for, failed registrations included. The registered names differ
and are bound; none is a word of the language, an included gate or a name reserved before its
registration. Slots are the numbers below the size, each the slot of one key. An operation is
known if and only if it has a name; known operations have one name if and only if they have one
key, whether they are provided or registered. What holds of a known operation's name and slot
holds after any further calls. -/
theorem lawful_after_calls (includes : List String) (calls : List ScopeCall)
    (hcalls : ∀ call ∈ calls, call.TagNamed) :
    let fresh := ofIncludes includes
    let s := fresh.afterAll calls
    s.registeredNames.Nodup ∧
      (∀ name ∈ s.registeredNames, s.binds name = true ∧ name ∉ reservedWords ∧
        (standardInclude ∈ includes → name ∉ StandardGate.includedNames)) ∧
      (∀ n < s.size, ∃ before op rest name, calls = before ++ .register op :: rest ∧
        (fresh.afterAll before).knows op = false ∧ s.slot? op = some n ∧
        s.resolve op = .ok name ∧ s.registeredNames[n]? = some name ∧
        .reserve name ∉ before) ∧
      (∀ a n, s.slot? a = some n → n < s.size ∧ ∀ b, s.slot? b = some n ↔ b.key = a.key) ∧
      (∀ a, s.knows a = true ↔ ∃ name, s.resolve a = .ok name) ∧
      (∀ a b, a.TagNamed → b.TagNamed → s.knows a = true → s.knows b = true →
        (s.resolve a = s.resolve b ↔ a.key = b.key)) ∧
      ∀ a, a.TagNamed → s.knows a = true → ∀ later, (∀ call ∈ later, call.TagNamed) →
        (s.afterAll later).knows a = true ∧ (s.afterAll later).resolve a = s.resolve a ∧
          (s.afterAll later).slot? a = s.slot? a := by
  intro fresh s
  have hfresh : fresh.Coherent := coherent_ofIncludes includes
  have h : s.Coherent := hfresh.afterAll hcalls
  refine ⟨h.names, ?_, ?_, ?_, s.knows_iff_resolve, ?_, ?_⟩
  · intro name hname
    obtain ⟨hword, hinc⟩ := h.free name hname
    refine ⟨?_, hword, ?_⟩
    · rw [binds_iff, boundNames_eq]
      exact List.mem_append_right _ hname
    · intro hstd
      have hnames : s.includedNames = StandardGate.includedNames := by
        rw [includedNames_afterAll]
        simp [fresh, includedNames, ofIncludes, hstd]
      rwa [hnames] at hinc
  · intro n hn
    exact exists_owner hfresh rfl hcalls hn
  · intro a n ha
    have hkey := h.slot?_eq_some.mp ha
    have hn : n < s.registeredKeys.length := (List.getElem?_eq_some_iff.mp hkey).1
    refine ⟨by rwa [registeredKeys, List.length_map] at hn, ?_⟩
    intro b
    rw [h.slot?_eq_some, hkey, Option.some.injEq, eq_comm]
  · intro a b hatag hbtag ha hb
    exact h.resolve_eq_iff_key_eq hatag hbtag ha hb
  · intro a hatag ha later hlater
    exact h.stable hatag ha hlater

namespace Sample

/-- An operation of its own with a name that may be taken. -/
def custom (id : OperationId) (name : String) : Operation := ⟨.gate, name, 1, 0, [], none, none, id⟩

/-- A standard gate that no include file has. -/
def unlisted : Operation := ⟨.gate, "unknown", 1, 0, [], none, some (.outside 40), 7⟩

/-- Names that clash with a gate, a register and each other, and one registration that fails. -/
def calls : List ScopeCall :=
  [.reserve "q", .register (custom 0 "h"), .register (custom 1 ""), .register unlisted,
    .register (custom 2 "h_0"), .reserve "h_0", .register (custom 3 "q"), .register (custom 0 "h")]

end Sample

theorem lawful_after_sample :
    let s := (ofIncludes [standardInclude]).afterAll Sample.calls
    (∀ call ∈ Sample.calls, call.TagNamed) ∧
      s.registeredNames = ["h_0", "unknown", "h_0_2", "q_3"] ∧ s.registeredNames.Nodup ∧
      (∃ before op rest name, Sample.calls = before ++ .register op :: rest ∧
        s.slot? op = some 2 ∧ s.resolve op = .ok name ∧ .reserve name ∉ before) ∧
      (s.afterAll [.reserve "x", .register (Sample.custom 4 "x")]).resolve (Sample.custom 3 "q") =
        .ok "q_3" := by
  have htag : ∀ call ∈ Sample.calls, call.TagNamed := by decide
  obtain ⟨hnodup, -, howner, -, -, -, hstable⟩ :=
    lawful_after_calls [standardInclude] Sample.calls htag
  obtain ⟨before, op, rest, name, hsplit, -, hslot, hname, -, hnot⟩ := howner 2 (by decide)
  obtain ⟨-, hlater, -⟩ := hstable (Sample.custom 3 "q") (by decide) (by decide)
    [.reserve "x", .register (Sample.custom 4 "x")] (by decide)
  exact ⟨htag, rfl, hnodup, ⟨before, op, rest, name, hsplit, hslot, hname, hnot⟩, hlater⟩

end Scope
end OpenQasm
