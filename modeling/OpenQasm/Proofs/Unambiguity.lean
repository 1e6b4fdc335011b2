import OpenQasm.Export.Scope
import OpenQasm.Proofs.Separators

/-! Programs with one text agree up to equal texts of expressions and the kind of a callee. -/
namespace OpenQasm

/-- What the opening line of a construct says. Expressions are known by their texts, and calls of
gates and of subroutines are not told apart. -/
inductive Opening where
  | gate (signature : Signature)
  | subroutine (signature : SubroutineSignature)
  | bodilessGate (signature : Signature)
  | register (storage : Storage) (name : String) (size : UInt64)
  | input (name : String)
  | call (name : String) (params : List String) (qubits : List Operand)
  | barrier (qubits : List Operand)
  | measure (target : Operand) (qubits : List Operand)
  | branch (left right : String)
deriving DecidableEq, Repr

/-- The opening of a construct and the outlines of what it encloses. -/
inductive Outline where
  | node (opening : Opening) (block : List Outline)

def Call.opening (c : Call) : Opening := .call c.name (c.params.map Expression.text) c.qubits

mutual

def Statement.outline : Statement → Outline
  | .gateCall call => .node call.opening []
  | .subroutineCall call => .node call.opening []
  | .barrier qubits => .node (.barrier qubits) []
  | .measure target qubits => .node (.measure target qubits) []
  | .branch test body => .node (.branch test.left.text test.right.text) (outlinesOf body)

def outlinesOf : List Statement → List Outline
  | [] => []
  | s :: rest => s.outline :: outlinesOf rest

end

def ProgramItem.outline : ProgramItem → Outline
  | .gate signature body => .node (.gate signature) (outlinesOf body)
  | .subroutine signature body => .node (.subroutine signature) (outlinesOf body)
  | .bodilessGate signature => .node (.bodilessGate signature) []
  | .register storage name size => .node (.register storage name size) []
  | .input name => .node (.input name) []
  | .statement s => s.outline

def Program.outline (p : Program) : List Outline := p.statements.map ProgramItem.outline

def Expression.names : Expression → List String
  | .integer _ => []
  | .real .. => []
  | .identifier name => [name]
  | .operand o => [o.name]

def Call.names (c : Call) : List String :=
  c.name :: (c.params.flatMap Expression.names ++ c.qubits.map (·.name))

def Signature.names (s : Signature) : List String := s.name :: (s.params ++ s.qubits)

def SubroutineSignature.names (s : SubroutineSignature) : List String :=
  s.name :: (s.params ++ s.qubits.map (·.name))

mutual

/-- All names in a statement. -/
def Statement.names : Statement → List String
  | .gateCall call => call.names
  | .subroutineCall call => call.names
  | .barrier qubits => qubits.map (·.name)
  | .measure target qubits => target.name :: qubits.map (·.name)
  | .branch test body => test.left.names ++ test.right.names ++ namesOf body

def namesOf : List Statement → List String
  | [] => []
  | s :: rest => s.names ++ namesOf rest

end

mutual

/-- The names that a line can begin with: those of calls and of targets of measurements. -/
def Statement.leaders : Statement → List String
  | .gateCall call => [call.name]
  | .subroutineCall call => [call.name]
  | .barrier _ => []
  | .measure target _ => [target.name]
  | .branch _ body => leadersOf body

def leadersOf : List Statement → List String
  | [] => []
  | s :: rest => s.leaders ++ leadersOf rest

end

namespace ProgramItem

def names : ProgramItem → List String
  | .gate signature body => signature.names ++ namesOf body
  | .subroutine signature body => signature.names ++ namesOf body
  | .bodilessGate signature => signature.names
  | .register _ name _ => [name]
  | .input name => [name]
  | .statement s => s.names

def leaders : ProgramItem → List String
  | .gate _ body => leadersOf body
  | .subroutine _ body => leadersOf body
  | .statement s => s.leaders
  | _ => []

end ProgramItem

/-- A program whose names are words, none that begins a line a word of the language, and whose
header has no line breaks. -/
structure Program.WellNamed (p : Program) : Prop where
  names : ∀ g ∈ p.statements, ∀ name ∈ g.names, IsWord name
  leaders : ∀ g ∈ p.statements, ∀ name ∈ g.leaders, name ∉ reservedWords
  version : Avoids ['\n'] p.header.version
  includes : ∀ filename ∈ p.header.includes, Avoids ['\n'] filename

namespace Storage

theorem keyword_eq_iff {storage : Storage} {w : String} :
    storage.keyword = w ↔ (storage = .bit ∧ w = "bit") ∨ (storage = .qubit ∧ w = "qubit") := by
  cases storage <;> simp [keyword, eq_comm]

theorem eq_keyword_iff {storage : Storage} {w : String} :
    w = storage.keyword ↔ (storage = .bit ∧ w = "bit") ∨ (storage = .qubit ∧ w = "qubit") := by
  rw [eq_comm, keyword_eq_iff]

theorem keyword_inj {storage other : Storage} (h : storage.keyword = other.keyword) :
    storage = other := by
  cases storage <;> cases other <;> simp [keyword] at h ⊢

end Storage

namespace Opening

/-- The word of the language that the line begins with, if it does not begin with a name. -/
def keyword? : Opening → Option String
  | .gate _ => some "gate"
  | .subroutine _ => some "def"
  | .bodilessGate _ => some "opaque"
  | .register storage _ _ => some storage.keyword
  | .input _ => some "input"
  | .call .. => none
  | .barrier _ => some "barrier"
  | .measure .. => none
  | .branch .. => some "if"

def keywords : List String := ["gate", "def", "opaque", "bit", "qubit", "input", "barrier", "if"]

/-- The first word of the line. -/
def word : Opening → String
  | .gate _ => "gate"
  | .subroutine _ => "def"
  | .bodilessGate _ => "opaque"
  | .register storage _ _ => storage.keyword
  | .input _ => "input"
  | .call name _ _ => name
  | .barrier _ => "barrier"
  | .measure target _ => target.name
  | .branch .. => "if"

/-- What follows the first word. -/
def rest : Opening → String
  | .gate signature => " " ++ signature.text ++ " \x7b"
  | .subroutine signature => " " ++ signature.text ++ " \x7b"
  | .bodilessGate signature => " " ++ signature.text ++ ";"
  | .register _ name size => sizeText size ++ (" " ++ name ++ ";")
  | .input name => " float[32] " ++ name ++ ";"
  | .call _ params qubits => argumentText params (qubits.map Operand.text) ++ ";"
  | .barrier qubits => " " ++ commaList (qubits.map Operand.text) ++ ";"
  | .measure target qubits =>
    optionalSizeText target.index ++ (" = " ++ measurementText qubits ++ ";")
  | .branch left right => " (" ++ (left ++ (" == " ++ right ++ ")\x7b"))

def line (a : Opening) : String := a.word ++ a.rest

/-- The lines that close what the line opens. -/
def closing : Opening → List String
  | .gate _ => ["\x7d"]
  | .subroutine _ => ["return;", "\x7d"]
  | .branch .. => ["\x7d"]
  | _ => []

/-- The line can be told from all others. -/
def Readable : Opening → Prop
  | .gate signature => ∀ name ∈ signature.names, IsWord name
  | .subroutine signature => ∀ name ∈ signature.names, IsWord name
  | .bodilessGate signature => ∀ name ∈ signature.names, IsWord name
  | .register _ name _ => IsWord name
  | .input name => IsWord name
  | .call name params qubits => IsWord name ∧ name ∉ reservedWords ∧ (∀ t ∈ params, IsItem t) ∧
      ∀ o ∈ qubits, IsWord o.name
  | .barrier qubits => ∀ o ∈ qubits, IsWord o.name
  | .measure target qubits => IsWord target.name ∧ target.name ∉ reservedWords ∧
      ∀ o ∈ qubits, IsWord o.name
  | .branch left right => Avoids [' ', '\n'] left ∧ Avoids ['\n'] right

variable {a b : Opening}

theorem keyword?_eq (h : a.Readable) :
    a.keyword? = if a.word ∈ reservedWords then some a.word else none := by
  cases a with
  | call name params qubits => simp [keyword?, word, h.2.1]
  | measure target qubits => simp [keyword?, word, h.2.1]
  | register storage name size => cases storage <;> rfl
  | _ => rfl

theorem mem_keywords {w : String} (h : a.keyword? = some w) : w ∈ keywords := by
  cases a with
  | call name params qubits => simp [keyword?] at h
  | measure target qubits => simp [keyword?] at h
  | register storage name size => cases storage <;> simp_all [keyword?, Storage.keyword, keywords]
  | _ => simp_all [keyword?, keywords]

theorem isWord_of_mem_reservedWords : ∀ w ∈ reservedWords, IsWord w := by decide

theorem isWord_word (h : a.Readable) : IsWord a.word := by
  cases a with
  | call name params qubits => exact h.1
  | measure target qubits => exact h.1
  | register storage name size => cases storage <;> simp only [word, Storage.keyword] <;> decide
  | _ =>
    simp only [word]
    decide

theorem beginsIn_rest (a : Opening) : BeginsIn separators a.rest := by
  cases a with
  | call name params qubits =>
    have hargs := beginsIn_argumentText params (qubits.map Operand.text)
    exact (hargs.mono (by decide)).append (by simp [BeginsIn, separators])
  | measure target qubits =>
    have hindex := beginsIn_optionalSizeText target.index
    exact (hindex.mono (by decide)).append (by simp [BeginsIn, separators])
  | _ => simp [rest, sizeText, BeginsIn, separators]

/-- The first word of a line ends at a separator. -/
theorem word_eq {w u : String} (h : a.Readable) (hw : Avoids separators w)
    (hu : BeginsIn separators u) (he : a.line = w ++ u) : a.word = w ∧ a.rest = u :=
  text_append_inj (isWord_word h).2 hw a.beginsIn_rest hu he

/-- No line begins with a word of the language that opens nothing. -/
theorem line_ne {w u : String} (h : a.Readable) (hw : w ∈ reservedWords) (hnew : w ∉ keywords)
    (hu : BeginsIn separators u) : a.line ≠ w ++ u := by
  intro he
  have hword := (word_eq h (isWord_of_mem_reservedWords w hw).2 hu he).1
  have hkey := keyword?_eq h
  rw [hword, if_pos hw] at hkey
  exact hnew (mem_keywords hkey)

end Opening

theorem IsWord.avoids_newline {s : String} (h : IsWord s) : Avoids ['\n'] s := h.2.mono (by decide)

theorem Signature.text_inj {s t : Signature} (hs : ∀ name ∈ s.names, IsWord name)
    (ht : ∀ name ∈ t.names, IsWord name) (h : s.text = t.text) : s = t := by
  obtain ⟨m, ps, qs⟩ := s
  obtain ⟨n, ps', qs'⟩ := t
  simp only [names, List.forall_mem_cons, List.forall_mem_append] at hs ht
  obtain ⟨hm, hps, hqs⟩ := hs
  obtain ⟨hn, hps', hqs'⟩ := ht
  obtain ⟨rfl, rfl, rfl⟩ := applicationText_inj hm hn (fun t ht => (hps t ht).isItem)
    (fun t ht => (hqs t ht).isItem) (fun t ht => (hps' t ht).isItem)
    (fun t ht => (hqs' t ht).isItem) h
  rfl

theorem Signature.avoids_text {s : Signature} (h : ∀ name ∈ s.names, IsWord name) :
    Avoids ['\n'] s.text := by
  simp only [names, List.forall_mem_cons, List.forall_mem_append] at h
  rw [text, applicationText_eq, avoids_append]
  exact ⟨h.1.avoids_newline, avoids_argumentText (by decide) (by decide)
    (fun t ht => (h.2.1 t ht).isItem) fun t ht => (h.2.2 t ht).isItem⟩

namespace QubitArgument
variable {q r : QubitArgument}

theorem text_eq (q : QubitArgument) :
    q.text = "qubit" ++ (optionalSizeText q.size ++ (" " ++ q.name)) := by
  rw [text, String.append_assoc, String.append_assoc]
  cases q.size <;> rfl

theorem isItem_text (h : IsWord q.name) : IsItem q.text := by
  rw [text_eq]
  refine ⟨by simp [String.append_eq_empty_iff], ?_⟩
  simp only [avoids_append]
  exact ⟨by decide, avoids_optionalSizeText (by decide) (by decide) (by decide) _, by decide,
    h.2.mono (by decide)⟩

theorem text_inj (h : q.text = r.text) : q = r := by
  rw [text_eq, text_eq, String.append_right_inj] at h
  obtain ⟨hsize, hname⟩ := optionalSizeText_append_inj (by simp [BeginsIn]) (by simp [BeginsIn]) h
  rw [String.append_right_inj] at hname
  obtain ⟨name, size⟩ := q
  obtain ⟨name', size'⟩ := r
  exact (mk.injEq ..).mpr ⟨hname, hsize⟩

end QubitArgument

namespace SubroutineSignature

theorem isItem_formals {s : SubroutineSignature} (h : ∀ name ∈ s.names, IsWord name) :
    (∀ t ∈ s.params.map ("float[32] " ++ ·), IsItem t) ∧
      ∀ t ∈ s.qubits.map QubitArgument.text, IsItem t := by
  simp only [names, List.forall_mem_cons, List.forall_mem_append, List.forall_mem_map] at h ⊢
  obtain ⟨-, hparams, hqubits⟩ := h
  constructor
  · intro p hp
    refine ⟨by simp [String.append_eq_empty_iff], avoids_append.mpr ⟨by decide, ?_⟩⟩
    exact (hparams p hp).2.mono (by decide)
  · exact fun q hq => QubitArgument.isItem_text (hqubits q hq)

theorem text_inj {s t : SubroutineSignature} (hs : ∀ name ∈ s.names, IsWord name)
    (ht : ∀ name ∈ t.names, IsWord name) (h : s.text = t.text) : s = t := by
  obtain ⟨hname, hparams, hqubits⟩ := applicationText_inj (hs s.name List.mem_cons_self)
    (ht t.name List.mem_cons_self) (isItem_formals hs).1 (isItem_formals hs).2
    (isItem_formals ht).1 (isItem_formals ht).2 h
  have hparams : s.params = t.params :=
    eq_of_map_eq (fun _ _ _ _ he => (String.append_right_inj _).mp he) hparams
  have hqubits : s.qubits = t.qubits :=
    eq_of_map_eq (fun _ _ _ _ he => QubitArgument.text_inj he) hqubits
  obtain ⟨m, ps, qs⟩ := s
  obtain ⟨n, ps', qs'⟩ := t
  exact (mk.injEq ..).mpr ⟨hname, hparams, hqubits⟩

theorem avoids_text {s : SubroutineSignature} (h : ∀ name ∈ s.names, IsWord name) :
    Avoids ['\n'] s.text := by
  rw [text, applicationText_eq, avoids_append]
  exact ⟨(h s.name List.mem_cons_self).avoids_newline, avoids_argumentText (by decide) (by decide)
    (isItem_formals h).1 (isItem_formals h).2⟩

end SubroutineSignature

namespace Opening
variable {a b : Opening}

/-- A call holds no equality sign, which every measurement does. -/
theorem rest_call_ne_rest_measure {name : String} {params : List String} {qubits : List Operand}
    (h : (call name params qubits).Readable) (target : Operand) (measured : List Operand) :
    (call name params qubits).rest ≠ (measure target measured).rest := by
  obtain ⟨-, -, hparams, hqubits⟩ := h
  have hcall : Avoids ['='] (call name params qubits).rest := by
    rw [rest, avoids_append]
    exact ⟨avoids_argumentText (by decide) (by decide) hparams
      (Operand.forall_isItem_text hqubits), by decide⟩
  intro he
  rw [he] at hcall
  exact hcall '=' (by simp [rest]) (by decide)

theorem commaList_operands_inj {os os' : List Operand} (h : ∀ o ∈ os, IsWord o.name)
    (h' : ∀ o ∈ os', IsWord o.name)
    (he : commaList (os.map Operand.text) = commaList (os'.map Operand.text)) : os = os' :=
  Operand.map_text_inj h h' (commaList_inj (Operand.forall_isItem_text h)
    (Operand.forall_isItem_text h') he)

/-- A line tells all that an opening says. -/
theorem line_inj (ha : a.Readable) (hb : b.Readable) (h : a.line = b.line) : a = b := by
  obtain ⟨hword, hrest⟩ := word_eq ha (isWord_word hb).2 b.beginsIn_rest h
  have hkind : a.keyword? = b.keyword? := by rw [keyword?_eq ha, keyword?_eq hb, hword]
  -- lines of different kinds begin with different words, unless both begin with a name
  cases a <;> cases b <;>
    try (simp only [keyword?, Option.some.injEq, reduceCtorEq, Storage.keyword_eq_iff,
      Storage.eq_keyword_iff, String.reduceEq, and_false, or_self] at hkind; done)
  case gate.gate s t =>
    rw [rest, rest, String.append_left_inj, String.append_right_inj] at hrest
    rw [Signature.text_inj ha hb hrest]
  case subroutine.subroutine s t =>
    rw [rest, rest, String.append_left_inj, String.append_right_inj] at hrest
    rw [SubroutineSignature.text_inj ha hb hrest]
  case bodilessGate.bodilessGate s t =>
    rw [rest, rest, String.append_left_inj, String.append_right_inj] at hrest
    rw [Signature.text_inj ha hb hrest]
  case register.register storage m k other n l =>
    obtain ⟨rfl, hname⟩ := sizeText_append_inj hrest
    rw [String.append_left_inj, String.append_right_inj] at hname
    rw [Storage.keyword_inj (Option.some.inj hkind), hname]
  case input.input m n =>
    rw [rest, rest, String.append_left_inj, String.append_right_inj] at hrest
    rw [hrest]
  case call.call m ps qs n ps' qs' =>
    rw [rest, rest, String.append_left_inj] at hrest
    obtain ⟨hps, hqs⟩ := argumentText_inj ha.2.2.1 (Operand.forall_isItem_text ha.2.2.2)
      hb.2.2.1 (Operand.forall_isItem_text hb.2.2.2) hrest
    obtain rfl : m = n := hword
    rw [hps, Operand.map_text_inj ha.2.2.2 hb.2.2.2 hqs]
  case call.measure m ps qs target measured =>
    exact absurd hrest (rest_call_ne_rest_measure ha target measured)
  case measure.call target measured n ps qs =>
    exact absurd hrest.symm (rest_call_ne_rest_measure hb target measured)
  case barrier.barrier qs qs' =>
    rw [rest, rest, String.append_left_inj, String.append_right_inj] at hrest
    rw [commaList_operands_inj ha hb hrest]
  case measure.measure target qs target' qs' =>
    obtain ⟨hindex, hmeasured⟩ := optionalSizeText_append_inj (by simp [BeginsIn])
      (by simp [BeginsIn]) hrest
    rw [String.append_left_inj, String.append_right_inj, measurementText, measurementText,
      String.append_right_inj] at hmeasured
    obtain ⟨m, i⟩ := target
    obtain ⟨n, j⟩ := target'
    obtain rfl : m = n := hword
    obtain rfl : i = j := hindex
    rw [commaList_operands_inj ha.2.2 hb.2.2 hmeasured]
  case branch.branch left right left' right' =>
    rw [rest, rest, String.append_right_inj] at hrest
    have hspace (u : String) : BeginsIn [' '] (" == " ++ u ++ ")\x7b") := by simp [BeginsIn]
    obtain ⟨rfl, hright⟩ := text_append_inj (ha.1.mono (by decide)) (hb.1.mono (by decide))
      (hspace right) (hspace right') hrest
    rw [String.append_left_inj, String.append_right_inj] at hright
    rw [hright]

theorem avoids_operands {os : List Operand} (h : ∀ o ∈ os, IsWord o.name) :
    Avoids ['\n'] (commaList (os.map Operand.text)) :=
  avoids_commaList (by decide) (by decide)
    fun t ht => (Operand.forall_isItem_text h t ht).2.mono (by decide)

theorem avoids_line (h : a.Readable) : Avoids ['\n'] a.line := by
  rw [line, avoids_append]
  refine ⟨(isWord_word h).avoids_newline, ?_⟩
  cases a with
  | gate s =>
    simp only [rest, avoids_append]
    exact ⟨⟨by decide, Signature.avoids_text h⟩, by decide⟩
  | subroutine s =>
    simp only [rest, avoids_append]
    exact ⟨⟨by decide, SubroutineSignature.avoids_text h⟩, by decide⟩
  | bodilessGate s =>
    simp only [rest, avoids_append]
    exact ⟨⟨by decide, Signature.avoids_text h⟩, by decide⟩
  | register storage name size =>
    have hsize : Avoids ['\n'] (sizeText size) :=
      avoids_optionalSizeText (by decide) (by decide) (by decide) (some size)
    simp only [rest, avoids_append]
    exact ⟨hsize, ⟨by decide, IsWord.avoids_newline h⟩, by decide⟩
  | input name =>
    simp only [rest, avoids_append]
    exact ⟨⟨by decide, IsWord.avoids_newline h⟩, by decide⟩
  | call name params qubits =>
    simp only [rest, avoids_append]
    exact ⟨avoids_argumentText (by decide) (by decide) h.2.2.1
      (Operand.forall_isItem_text h.2.2.2), by decide⟩
  | barrier qubits =>
    simp only [rest, avoids_append]
    exact ⟨⟨by decide, avoids_operands h⟩, by decide⟩
  | measure target qubits =>
    simp only [rest, measurementText, avoids_append]
    exact ⟨avoids_optionalSizeText (by decide) (by decide) (by decide) _,
      ⟨by decide, by decide, avoids_operands h.2.2⟩, by decide⟩
  | branch left right =>
    simp only [rest, avoids_append]
    exact ⟨by decide, h.1.mono (by decide), ⟨by decide, h.2⟩, by decide⟩

end Opening

namespace Outline

mutual

def lines : Outline → List String
  | .node opening block => opening.line :: (linesOf block ++ opening.closing)

def linesOf : List Outline → List String
  | [] => []
  | a :: rest => a.lines ++ linesOf rest

end

mutual

/-- All opening lines can be told apart, and only those with closing lines enclose anything. -/
def Readable : Outline → Prop
  | .node opening block =>
    opening.Readable ∧ (opening.closing = [] → block = []) ∧ AllReadable block

def AllReadable : List Outline → Prop
  | [] => True
  | a :: rest => a.Readable ∧ AllReadable rest

end

/-- No outline can begin with the first of the lines. -/
def Ends (lines : List String) : Prop :=
  ∀ line ∈ lines.head?, ∀ opening : Opening, opening.Readable → opening.line ≠ line

theorem ends_nil : Ends [] := by simp [Ends]

theorem ends_closing {opening : Opening} (h : opening.closing ≠ []) (rest : List String) :
    Ends (opening.closing ++ rest) := by
  have hbrace (a : Opening) (ha : a.Readable) : a.line ≠ "\x7d" := by
    intro he
    have hempty := (Opening.word_eq (w := "") (u := "\x7d") ha (by decide)
      (by simp [BeginsIn, separators]) he).1
    exact (Opening.isWord_word ha).1 hempty
  have hreturn (a : Opening) (ha : a.Readable) : a.line ≠ "return;" :=
    Opening.line_ne (w := "return") (u := ";") ha (by decide) (by decide)
      (by simp [BeginsIn, separators])
  cases opening with
  | gate s => simpa [Ends, Opening.closing] using hbrace
  | subroutine s => simpa [Ends, Opening.closing] using hreturn
  | branch left right => simpa [Ends, Opening.closing] using hbrace
  | _ => simp [Opening.closing] at h

mutual

/-- The lines of an outline tell the outline and where it ends. -/
theorem lines_append_inj : ∀ {a b : Outline} {u v : List String}, a.Readable → b.Readable →
    a.lines ++ u = b.lines ++ v → a = b ∧ u = v
  | .node opening block, .node opening' block', u, v, ha, hb, h => by
    rw [Readable] at ha hb
    rw [lines, lines, List.cons_append, List.cons_append, List.append_assoc,
      List.append_assoc] at h
    obtain ⟨hline, hrest⟩ := List.cons.inj h
    obtain rfl := Opening.line_inj ha.1 hb.1 hline
    by_cases hclosing : opening.closing = []
    · rw [ha.2.1 hclosing, hb.2.1 hclosing, hclosing] at hrest
      rw [ha.2.1 hclosing, hb.2.1 hclosing]
      exact ⟨rfl, hrest⟩
    · obtain ⟨rfl, htail⟩ := linesOf_append_inj ha.2.2 hb.2.2 (ends_closing hclosing u)
        (ends_closing hclosing v) hrest
      exact ⟨rfl, List.append_cancel_left htail⟩

theorem linesOf_append_inj : ∀ {as bs : List Outline} {u v : List String}, AllReadable as →
    AllReadable bs → Ends u → Ends v → linesOf as ++ u = linesOf bs ++ v → as = bs ∧ u = v
  | [], [], u, v, _, _, _, _, h => ⟨rfl, h⟩
  | [], .node opening block :: bs, u, v, _, hb, hu, _, h => by
    rw [AllReadable, Readable] at hb
    obtain rfl : u = _ := h
    exact absurd rfl (hu opening.line rfl opening hb.1.1)
  | .node opening block :: as, [], u, v, ha, _, _, hv, h => by
    rw [AllReadable, Readable] at ha
    obtain rfl : _ = v := h
    exact absurd rfl (hv opening.line rfl opening ha.1.1)
  | a :: as, b :: bs, u, v, ha, hb, hu, hv, h => by
    rw [AllReadable] at ha hb
    rw [linesOf, linesOf, List.append_assoc, List.append_assoc] at h
    obtain ⟨rfl, hrest⟩ := lines_append_inj ha.1 hb.1 h
    obtain ⟨rfl, htail⟩ := linesOf_append_inj ha.2 hb.2 hu hv hrest
    exact ⟨rfl, htail⟩

end

theorem linesOf_eq_flatMap (as : List Outline) : linesOf as = as.flatMap lines := by
  induction as with
  | nil => rfl
  | cons a rest ih => rw [linesOf, List.flatMap_cons, ih]

mutual

theorem avoids_lines : ∀ {a : Outline}, a.Readable → ∀ line ∈ a.lines, Avoids ['\n'] line
  | .node opening block, h => by
    rw [Readable] at h
    rw [lines, List.forall_mem_cons, List.forall_mem_append]
    refine ⟨Opening.avoids_line h.1, avoids_linesOf h.2.2, ?_⟩
    cases opening <;> simp only [Opening.closing] <;> decide

theorem avoids_linesOf : ∀ {as : List Outline}, AllReadable as →
    ∀ line ∈ linesOf as, Avoids ['\n'] line
  | [], _ => by simp [linesOf]
  | a :: rest, h => by
    rw [AllReadable] at h
    rw [linesOf, List.forall_mem_append]
    exact ⟨avoids_lines h.1, avoids_linesOf h.2⟩

end

theorem allReadable_map {α : Type} {f : α → Outline} {xs : List α} (h : ∀ x ∈ xs, (f x).Readable) :
    AllReadable (xs.map f) := by
  induction xs with
  | nil => trivial
  | cons x rest ih =>
    rw [List.map_cons, AllReadable]
    exact ⟨h x List.mem_cons_self, ih fun y hy => h y (List.mem_cons_of_mem x hy)⟩

end Outline

theorem Outline.lines_leaf {a : Opening} (h : a.closing = []) : (node a []).lines = [a.line] := by
  rw [lines, linesOf, h, List.append_nil]

theorem Call.line_opening (c : Call) : c.opening.line = c.text ++ ";" := by
  rw [Opening.line, opening, Opening.word, Opening.rest, text, applicationText_eq,
    String.append_assoc]

namespace Opening

theorem line_gate (s : Signature) : (gate s).line = "gate " ++ s.text ++ " \x7b" := by
  rw [line, word, rest, ← String.append_assoc, ← String.append_assoc]
  rfl

theorem line_subroutine (s : SubroutineSignature) :
    (subroutine s).line = "def " ++ s.text ++ " \x7b" := by
  rw [line, word, rest, ← String.append_assoc, ← String.append_assoc]
  rfl

theorem line_bodilessGate (s : Signature) :
    (bodilessGate s).line = "opaque " ++ s.text ++ ";" := by
  rw [line, word, rest, ← String.append_assoc, ← String.append_assoc]
  rfl

theorem line_register (storage : Storage) (name : String) (size : UInt64) :
    (register storage name size).line =
      storage.keyword ++ sizeText size ++ " " ++ name ++ ";" := by
  simp only [line, word, rest, String.append_assoc]

theorem line_input (name : String) : (input name).line = "input float[32] " ++ name ++ ";" := by
  rw [line, word, rest, ← String.append_assoc, ← String.append_assoc]
  rfl

theorem line_barrier (qubits : List Operand) :
    (barrier qubits).line = "barrier " ++ commaList (qubits.map Operand.text) ++ ";" := by
  rw [line, word, rest, ← String.append_assoc, ← String.append_assoc]
  rfl

theorem line_measure (target : Operand) (qubits : List Operand) :
    (measure target qubits).line = target.text ++ " = " ++ measurementText qubits ++ ";" := by
  rw [line, word, rest, Operand.text_eq]
  simp only [String.append_assoc]

theorem line_branch (test : Equality) :
    (branch test.left.text test.right.text).line = "if (" ++ test.text ++ ")\x7b" := by
  simp only [line, word, rest, Equality.text, ← String.append_assoc]
  rfl

end Opening

namespace Statement

mutual

/-- A statement is printed as its outline says. -/
theorem lines_outline : ∀ s : Statement, s.outline.lines = s.lines
  | .gateCall call => by
    rw [outline, Outline.lines_leaf rfl, Call.line_opening, lines, headText]
  | .subroutineCall call => by
    rw [outline, Outline.lines_leaf rfl, Call.line_opening, lines, headText]
  | .barrier qubits => by
    rw [outline, Outline.lines_leaf rfl, Opening.line_barrier, lines, headText]
  | .measure target qubits => by
    rw [outline, Outline.lines_leaf rfl, Opening.line_measure, lines, headText]
  | .branch test body => by
    rw [outline, Outline.lines, Opening.line_branch, linesOf_outlinesOf body, lines, headText]
    rfl

theorem linesOf_outlinesOf : ∀ body : List Statement,
    Outline.linesOf (outlinesOf body) = blockLines body
  | [] => rfl
  | s :: rest => by
    rw [outlinesOf, Outline.linesOf, blockLines, lines_outline s, linesOf_outlinesOf rest]

end

end Statement

theorem ProgramItem.lines_outline (g : ProgramItem) : g.outline.lines = g.lines := by
  cases g with
  | gate signature body =>
    rw [outline, Outline.lines, Statement.linesOf_outlinesOf, Opening.line_gate]
    rfl
  | subroutine signature body =>
    rw [outline, Outline.lines, Statement.linesOf_outlinesOf, Opening.line_subroutine]
    rfl
  | bodilessGate signature =>
    rw [outline, Outline.lines_leaf rfl, Opening.line_bodilessGate]
    rfl
  | register storage name size =>
    rw [outline, Outline.lines_leaf rfl, Opening.line_register]
    rfl
  | input name =>
    rw [outline, Outline.lines_leaf rfl, Opening.line_input]
    rfl
  | statement s => exact s.lines_outline

theorem Program.lines_eq (p : Program) :
    p.lines = p.header.lines ++ Outline.linesOf p.outline := by
  rw [lines, Outline.linesOf_eq_flatMap, outline, List.flatMap_map]
  simp only [ProgramItem.lines_outline]

namespace Expression
variable {e : Expression}

theorem avoids_text (h : ∀ name ∈ e.names, IsWord name) :
    e.text ≠ "" ∧ Avoids [' ', ',', ')', '\n', '='] e.text := by
  have hword {s : String} (hs : IsWord s) : s ≠ "" ∧ Avoids [' ', ',', ')', '\n', '='] s :=
    ⟨hs.1, hs.2.mono (by decide)⟩
  cases e with
  | integer value => exact hword (isWord_toString_int value)
  | real value fold => exact hword (value.isWord_angleText fold)
  | identifier name => exact hword (h name List.mem_cons_self)
  | operand o =>
    have ho := h o.name List.mem_cons_self
    refine ⟨(Operand.isItem_text ho).1, ?_⟩
    rw [text, Operand.text_eq, avoids_append]
    exact ⟨ho.2.mono (by decide), avoids_optionalSizeText (by decide) (by decide) (by decide) _⟩

theorem isItem_text (h : ∀ name ∈ e.names, IsWord name) : IsItem e.text :=
  ⟨(avoids_text h).1, (avoids_text h).2.mono (by decide)⟩

end Expression

theorem Call.readable_opening {c : Call} (hnames : ∀ name ∈ c.names, IsWord name)
    (hname : c.name ∉ reservedWords) : c.opening.Readable := by
  simp only [names, List.forall_mem_cons, List.forall_mem_append, List.forall_mem_map] at hnames
  obtain ⟨hword, hparams, hqubits⟩ := hnames
  refine ⟨hword, hname, ?_, hqubits⟩
  intro t ht
  obtain ⟨e, he, rfl⟩ := List.mem_map.mp ht
  exact Expression.isItem_text fun name hn => hparams name (List.mem_flatMap.mpr ⟨e, he, hn⟩)

namespace Statement

mutual

theorem readable_outline : ∀ {s : Statement}, (∀ name ∈ s.names, IsWord name) →
    (∀ name ∈ s.leaders, name ∉ reservedWords) → s.outline.Readable
  | .gateCall call, hnames, hlead => by
    rw [outline, Outline.Readable]
    exact ⟨call.readable_opening hnames (hlead call.name List.mem_cons_self), fun _ => rfl, trivial⟩
  | .subroutineCall call, hnames, hlead => by
    rw [outline, Outline.Readable]
    exact ⟨call.readable_opening hnames (hlead call.name List.mem_cons_self), fun _ => rfl, trivial⟩
  | .barrier qubits, hnames, _ => by
    rw [outline, Outline.Readable]
    exact ⟨List.forall_mem_map.mp hnames, fun _ => rfl, trivial⟩
  | .measure target qubits, hnames, hlead => by
    rw [names, List.forall_mem_cons, List.forall_mem_map] at hnames
    rw [outline, Outline.Readable]
    exact ⟨⟨hnames.1, hlead target.name List.mem_cons_self, hnames.2⟩, fun _ => rfl, trivial⟩
  | .branch test body, hnames, hlead => by
    rw [names, List.forall_mem_append, List.forall_mem_append] at hnames
    obtain ⟨⟨hleft, hright⟩, hbody⟩ := hnames
    rw [outline, Outline.Readable]
    refine ⟨⟨?_, ?_⟩, nofun, allReadable_outlinesOf hbody hlead⟩
    · exact (Expression.avoids_text hleft).2.mono (by decide)
    · exact (Expression.avoids_text hright).2.mono (by decide)

theorem allReadable_outlinesOf : ∀ {body : List Statement}, (∀ name ∈ namesOf body, IsWord name) →
    (∀ name ∈ leadersOf body, name ∉ reservedWords) → Outline.AllReadable (outlinesOf body)
  | [], _, _ => trivial
  | s :: rest, hnames, hlead => by
    rw [namesOf, List.forall_mem_append] at hnames
    rw [leadersOf, List.forall_mem_append] at hlead
    rw [outlinesOf, Outline.AllReadable]
    exact ⟨readable_outline hnames.1 hlead.1, allReadable_outlinesOf hnames.2 hlead.2⟩

end

end Statement

theorem ProgramItem.readable_outline {g : ProgramItem} (hnames : ∀ name ∈ g.names, IsWord name)
    (hlead : ∀ name ∈ g.leaders, name ∉ reservedWords) : g.outline.Readable := by
  cases g with
  | gate signature body =>
    rw [names, List.forall_mem_append] at hnames
    rw [outline, Outline.Readable]
    exact ⟨hnames.1, nofun, Statement.allReadable_outlinesOf hnames.2 hlead⟩
  | subroutine signature body =>
    rw [names, List.forall_mem_append] at hnames
    rw [outline, Outline.Readable]
    exact ⟨hnames.1, nofun, Statement.allReadable_outlinesOf hnames.2 hlead⟩
  | bodilessGate signature =>
    rw [outline, Outline.Readable]
    exact ⟨hnames, fun _ => rfl, trivial⟩
  | register storage name size =>
    rw [outline, Outline.Readable]
    exact ⟨hnames name List.mem_cons_self, fun _ => rfl, trivial⟩
  | input name =>
    rw [outline, Outline.Readable]
    exact ⟨hnames name List.mem_cons_self, fun _ => rfl, trivial⟩
  | statement s => exact Statement.readable_outline hnames hlead

namespace Program
variable {p q : Program}

theorem WellNamed.allReadable (h : p.WellNamed) : Outline.AllReadable p.outline :=
  Outline.allReadable_map fun g hg => ProgramItem.readable_outline (h.names g hg) (h.leaders g hg)

theorem WellNamed.avoids_lines (h : p.WellNamed) : ∀ line ∈ p.lines, Avoids ['\n'] line := by
  rw [lines_eq, List.forall_mem_append, Header.lines, List.forall_mem_cons, List.forall_mem_map]
  refine ⟨⟨?_, ?_⟩, Outline.avoids_linesOf h.allReadable⟩
  · simp only [versionText, avoids_append]
    exact ⟨⟨by decide, h.version⟩, by decide⟩
  · intro filename hf
    simp only [includeText, avoids_append]
    exact ⟨⟨by decide, h.includes filename hf⟩, by decide⟩

/-- No inclusion follows the header. -/
theorem WellNamed.ne_includeText (h : p.WellNamed) :
    ∀ line ∈ (Outline.linesOf p.outline).head?, ¬ ∃ filename, includeText filename = line := by
  have hread := h.allReadable
  cases hout : p.outline with
  | nil => simp [Outline.linesOf]
  | cons a rest =>
    obtain ⟨opening, block⟩ := a
    rw [hout, Outline.AllReadable, Outline.Readable] at hread
    rintro line hline ⟨filename, rfl⟩
    have hopens : opening.line = "include" ++ (" " ++ filename ++ ";") := by
      rw [← String.append_assoc, ← String.append_assoc]
      exact Option.some.inj hline
    exact Opening.line_ne hread.1.1 (by decide) (by decide) (by simp [BeginsIn, separators]) hopens

theorem WellNamed.lines_inj (hp : p.WellNamed) (hq : q.WellNamed) (h : p.lines = q.lines) :
    p.header = q.header ∧ p.outline = q.outline := by
  rw [lines_eq, lines_eq, Header.lines, Header.lines, List.cons_append, List.cons_append] at h
  obtain ⟨hversion, hrest⟩ := List.cons.inj h
  rw [versionText, versionText, String.append_left_inj, String.append_right_inj] at hversion
  have hinclude (filenames : List String) :
      ∀ line ∈ filenames.map includeText, ∃ filename, includeText filename = line :=
    List.forall_mem_map.mpr fun filename _ => ⟨filename, rfl⟩
  obtain ⟨hincludes, houtline⟩ := append_inj_of_stop (hinclude p.header.includes)
    (hinclude q.header.includes) hp.ne_includeText hq.ne_includeText hrest
  have hincludes : p.header.includes = q.header.includes := by
    refine eq_of_map_eq (fun f _ g _ he => ?_) hincludes
    rwa [includeText, includeText, String.append_left_inj, String.append_right_inj] at he
  have houtline := (Outline.linesOf_append_inj hp.allReadable hq.allReadable Outline.ends_nil
    Outline.ends_nil (congrArg (· ++ []) houtline)).1
  obtain ⟨⟨version, includes⟩, items⟩ := p
  obtain ⟨⟨version', includes'⟩, items'⟩ := q
  exact ⟨(Header.mk.injEq ..).mpr ⟨hversion, hincludes⟩, houtline⟩

/-- Well-named programs have one text exactly if they have one header and one outline. -/
theorem text_eq_text_iff (hp : p.WellNamed) (hq : q.WellNamed) :
    p.text = q.text ↔ p.header = q.header ∧ p.outline = q.outline := by
  constructor
  · intro h
    exact hp.lines_inj hq (textOfLines_inj hp.avoids_lines hq.avoids_lines h)
  · rintro ⟨hheader, houtline⟩
    rw [text, text, lines_eq, lines_eq, hheader, houtline]

/-- A program with a branch in a branch. -/
def nestedBranches (inner outer : List Statement) : Program where
  header := ⟨languageVersion, ["stdgates.inc"]⟩
  statements :=
    let test : Equality := ⟨.operand ⟨"c", some 0⟩, .integer 1⟩
    [.register .bit "c" 1, .register .qubit "q" 1,
      .statement (.branch test (.branch test inner :: outer))]

/-- The text shows to which of two nested branches a call belongs, but not whether its gate is
a subroutine, nor whether a number in it is an identifier. -/
theorem nestedBranches_text_eq_text_iff :
    let gate := Statement.gateCall ⟨"p", [.integer 2], [⟨"q", some 0⟩]⟩
    let subroutine := Statement.subroutineCall ⟨"p", [.identifier "2"], [⟨"q", some 0⟩]⟩
    (nestedBranches [gate] []).text = (nestedBranches [subroutine] []).text ∧
      (nestedBranches [gate] []).text ≠ (nestedBranches [] [gate]).text := by
  intro gate subroutine
  have hinner : (nestedBranches [gate] []).WellNamed :=
    ⟨by decide, by decide, by decide, by decide⟩
  have hsub : (nestedBranches [subroutine] []).WellNamed :=
    ⟨by decide, by decide, by decide, by decide⟩
  have houter : (nestedBranches [] [gate]).WellNamed :=
    ⟨by decide, by decide, by decide, by decide⟩
  constructor
  · exact (text_eq_text_iff hinner hsub).mpr ⟨rfl, rfl⟩
  · intro he
    have houtline := ((text_eq_text_iff hinner houter).mp he).2
    simp [outline, nestedBranches, ProgramItem.outline, Statement.outline, outlinesOf] at houtline

end Program

end OpenQasm
