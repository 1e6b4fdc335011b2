import Mathlib
import OpenQasm.Program.Text

/-! Texts that can be taken apart again at the characters between their parts. -/
namespace OpenQasm

/-- Two parts are told apart by a property that all of the first has and that the second does not
begin with. -/
theorem append_inj_of_stop {α : Type} {P : α → Prop} {xs ys us vs : List α}
    (hxs : ∀ a ∈ xs, P a) (hys : ∀ a ∈ ys, P a) (hus : ∀ a ∈ us.head?, ¬ P a)
    (hvs : ∀ a ∈ vs.head?, ¬ P a) (h : xs ++ us = ys ++ vs) : xs = ys ∧ us = vs := by
  induction xs generalizing ys with
  | nil =>
    cases ys with
    | nil => exact ⟨rfl, h⟩
    | cons y ys =>
      obtain rfl : us = y :: (ys ++ vs) := h
      exact absurd (hys y List.mem_cons_self) (hus y rfl)
  | cons x xs ih =>
    cases ys with
    | nil =>
      obtain rfl : x :: (xs ++ us) = vs := h
      exact absurd (hxs x List.mem_cons_self) (hvs x rfl)
    | cons y ys =>
      obtain ⟨rfl, htail⟩ := List.cons.inj h
      obtain ⟨rfl, hrest⟩ := ih (fun a ha => hxs a (List.mem_cons_of_mem x ha))
        (fun a ha => hys a (List.mem_cons_of_mem x ha)) htail
      exact ⟨rfl, hrest⟩

/-- The text holds none of the given characters. -/
def Avoids (stops : List Char) (text : String) : Prop := ∀ c ∈ text.toList, c ∉ stops

/-- The text is empty or begins with one of the given characters. -/
def BeginsIn (stops : List Char) (text : String) : Prop := ∀ c ∈ text.toList.head?, c ∈ stops

instance (stops : List Char) : DecidablePred (Avoids stops) :=
  fun text => List.decidableBAll (· ∉ stops) text.toList

theorem text_append_inj {stops : List Char} {s t u v : String} (hs : Avoids stops s)
    (ht : Avoids stops t) (hu : BeginsIn stops u) (hv : BeginsIn stops v)
    (h : s ++ u = t ++ v) : s = t ∧ u = v := by
  have hlist := congrArg String.toList h
  rw [String.toList_append, String.toList_append] at hlist
  obtain ⟨hfirst, hsecond⟩ := append_inj_of_stop hs ht (fun c hc hn => hn (hu c hc))
    (fun c hc hn => hn (hv c hc)) hlist
  exact ⟨String.toList_inj.mp hfirst, String.toList_inj.mp hsecond⟩

section
variable {stops : List Char} {s t : String}

@[simp] theorem avoids_append : Avoids stops (s ++ t) ↔ Avoids stops s ∧ Avoids stops t := by
  simp only [Avoids, String.toList_append, List.forall_mem_append]

theorem Avoids.mono {fewer : List Char} (h : Avoids stops s) (hsub : fewer ⊆ stops) :
    Avoids fewer s :=
  fun c hc hin => h c hc (hsub hin)

theorem BeginsIn.mono {more : List Char} (h : BeginsIn stops s) (hsub : stops ⊆ more) :
    BeginsIn more s :=
  fun c hc => hsub (h c hc)

/-- A text begins with what its first part begins with, unless that is empty. -/
theorem BeginsIn.append (hs : BeginsIn stops s) (ht : BeginsIn stops t) :
    BeginsIn stops (s ++ t) := by
  intro c hc
  rw [String.toList_append, List.head?_append] at hc
  cases hhead : s.toList.head? with
  | none => exact ht c (by simpa [hhead] using hc)
  | some first => exact hs c (by simpa [hhead] using hc)

end

/-- The characters that stand between names. -/
def separators : List Char :=
  [' ', '\n', '(', ')', '[', ']', '\x7b', '\x7d', ',', ';', '=']

/-- A name that holds no separator. -/
def IsWord (s : String) : Prop := s ≠ "" ∧ Avoids separators s

instance : DecidablePred IsWord :=
  fun s => inferInstanceAs (Decidable (s ≠ "" ∧ Avoids separators s))

/-- A text that can stand in a list of parameters or qubits. -/
def IsItem (s : String) : Prop := s ≠ "" ∧ Avoids [',', ')', '\n', '='] s

theorem IsWord.isItem {s : String} (h : IsWord s) : IsItem s :=
  ⟨h.1, h.2.mono (by decide)⟩

theorem commaList_cons (t : String) (rest : List String) :
    commaList (t :: rest) = t ++ (if rest.isEmpty then "" else ", " ++ commaList rest) := by
  cases rest with
  | nil => simp [commaList]
  | cons u rest => simp [commaList, String.append_assoc]

theorem commaList_cons_ne {t : String} (h : t ≠ "") (rest : List String) :
    commaList (t :: rest) ≠ "" := by
  rw [commaList_cons]
  exact fun he => h (String.append_eq_empty_iff.mp he).1

theorem avoids_commaList {stops : List Char} (hcomma : ',' ∉ stops) (hblank : ' ' ∉ stops)
    {texts : List String} (h : ∀ t ∈ texts, Avoids stops t) : Avoids stops (commaList texts) := by
  induction texts with
  | nil => simp [commaList, Avoids]
  | cons t rest ih =>
    rw [commaList_cons, avoids_append]
    refine ⟨h t List.mem_cons_self, ?_⟩
    split
    · simp [Avoids]
    · rw [avoids_append]
      refine ⟨?_, ih fun u hu => h u (List.mem_cons_of_mem t hu)⟩
      simp [Avoids, hcomma, hblank]

/-- A list of items is read back by splitting it at the commas. -/
theorem commaList_inj {xs ys : List String} (hxs : ∀ t ∈ xs, IsItem t) (hys : ∀ t ∈ ys, IsItem t)
    (h : commaList xs = commaList ys) : xs = ys := by
  have hcomma {t : String} (ht : IsItem t) : Avoids [','] t := ht.2.mono (by decide)
  have hrest (rest : List String) :
      BeginsIn [','] (if rest.isEmpty then "" else ", " ++ commaList rest) := by
    split <;> simp [BeginsIn]
  induction xs generalizing ys with
  | nil =>
    cases ys with
    | nil => rfl
    | cons y ys => exact absurd h.symm (commaList_cons_ne (hys y List.mem_cons_self).1 ys)
  | cons x xs ih =>
    cases ys with
    | nil => exact absurd h (commaList_cons_ne (hxs x List.mem_cons_self).1 xs)
    | cons y ys =>
      rw [commaList_cons, commaList_cons] at h
      obtain ⟨rfl, htail⟩ := text_append_inj (hcomma (hxs x List.mem_cons_self))
        (hcomma (hys y List.mem_cons_self)) (hrest xs) (hrest ys) h
      suffices hlists : commaList xs = commaList ys by
        rw [ih (fun t ht => hxs t (List.mem_cons_of_mem x ht))
          (fun t ht => hys t (List.mem_cons_of_mem x ht)) hlists]
      cases xs with
      | nil =>
        cases ys with
        | nil => rfl
        | cons y' ys => simp at htail
      | cons x' xs =>
        cases ys with
        | nil => simp at htail
        | cons y' ys => exact (String.append_right_inj ", ").mp htail

/-- What follows the name in an application. -/
def argumentText (params qubits : List String) : String :=
  (if params.isEmpty then "" else "(" ++ commaList params ++ ")") ++
    (if qubits.isEmpty then "" else " " ++ commaList qubits)

theorem applicationText_eq (name : String) (params qubits : List String) :
    applicationText name params qubits = name ++ argumentText params qubits :=
  String.append_assoc

theorem beginsIn_argumentText (params qubits : List String) :
    BeginsIn ['(', ' '] (argumentText params qubits) := by
  cases params <;> cases qubits <;> simp [argumentText, BeginsIn]

theorem avoids_argumentText {stops : List Char} (hstops : Avoids stops "(), ")
    (hsub : stops ⊆ [',', ')', '\n', '=']) {params qubits : List String}
    (hparams : ∀ t ∈ params, IsItem t) (hqubits : ∀ t ∈ qubits, IsItem t) :
    Avoids stops (argumentText params qubits) := by
  obtain ⟨hopen, hclose, hcomma, hblank⟩ :
      '(' ∉ stops ∧ ')' ∉ stops ∧ ',' ∉ stops ∧ ' ' ∉ stops := by simpa [Avoids] using hstops
  have hp := avoids_commaList hcomma hblank fun t ht => (hparams t ht).2.mono hsub
  have hq := avoids_commaList hcomma hblank fun t ht => (hqubits t ht).2.mono hsub
  rw [argumentText, avoids_append]
  constructor
  · split
    · simp [Avoids]
    · rw [avoids_append, avoids_append]
      exact ⟨⟨by simpa [Avoids] using hopen, hp⟩, by simpa [Avoids] using hclose⟩
  · split
    · simp [Avoids]
    · rw [avoids_append]
      exact ⟨by simpa [Avoids] using hblank, hq⟩

/-- The qubits follow a blank, which no parameters do. -/
theorem argumentText_nil_ne (p : String) (params qubits others : List String) :
    argumentText [] qubits ≠ argumentText (p :: params) others := by
  intro h
  have hhead := congrArg (fun s : String => s.toList.head?) h
  cases qubits <;> simp [argumentText] at hhead

/-- The parameters end at the closing parenthesis. -/
theorem argumentText_inj {ps qs ps' qs' : List String} (hps : ∀ t ∈ ps, IsItem t)
    (hqs : ∀ t ∈ qs, IsItem t) (hps' : ∀ t ∈ ps', IsItem t) (hqs' : ∀ t ∈ qs', IsItem t)
    (h : argumentText ps qs = argumentText ps' qs') : ps = ps' ∧ qs = qs' := by
  have hqubits (he : argumentText [] qs = argumentText [] qs') : qs = qs' := by
    cases qs with
    | nil =>
      cases qs' with
      | nil => rfl
      | cons q qs' => simp [argumentText] at he
    | cons q qs =>
      cases qs' with
      | nil => simp [argumentText] at he
      | cons q' qs' =>
        refine commaList_inj hqs hqs' ((String.append_right_inj " ").mp ?_)
        simpa [argumentText] using he
  cases ps with
  | nil =>
    cases ps' with
    | nil => exact ⟨rfl, hqubits h⟩
    | cons p ps' => exact absurd h (argumentText_nil_ne p ps' qs qs')
  | cons p ps =>
    cases ps' with
    | nil => exact absurd h.symm (argumentText_nil_ne p ps qs' qs)
    | cons p' ps' =>
      have hparen {t : String} (ht : IsItem t) : Avoids [')'] t := ht.2.mono (by decide)
      have hlist : commaList (p :: ps) ++ (")" ++ argumentText [] qs) =
          commaList (p' :: ps') ++ (")" ++ argumentText [] qs') := by
        apply (String.append_right_inj "(").mp
        simpa [argumentText, String.append_assoc] using h
      obtain ⟨hparams, hrest⟩ := text_append_inj
        (avoids_commaList (by decide) (by decide) fun t ht => hparen (hps t ht))
        (avoids_commaList (by decide) (by decide) fun t ht => hparen (hps' t ht))
        (by simp [BeginsIn]) (by simp [BeginsIn]) hlist
      exact ⟨commaList_inj hps hps' hparams, hqubits ((String.append_right_inj ")").mp hrest)⟩

/-- A name ends where its arguments begin. -/
theorem applicationText_inj {m n : String} {ps qs ps' qs' : List String} (hm : IsWord m)
    (hn : IsWord n) (hps : ∀ t ∈ ps, IsItem t) (hqs : ∀ t ∈ qs, IsItem t)
    (hps' : ∀ t ∈ ps', IsItem t) (hqs' : ∀ t ∈ qs', IsItem t)
    (h : applicationText m ps qs = applicationText n ps' qs') : m = n ∧ ps = ps' ∧ qs = qs' := by
  rw [applicationText_eq, applicationText_eq] at h
  obtain ⟨hname, hargs⟩ := text_append_inj (hm.2.mono (by decide)) (hn.2.mono (by decide))
    (beginsIn_argumentText ps qs) (beginsIn_argumentText ps' qs') h
  exact ⟨hname, argumentText_inj hps hqs hps' hqs' hargs⟩

/-- Lists with the same texts are the same if each text tells its element. -/
theorem eq_of_map_eq {α β : Type} {f : α → β} {xs ys : List α}
    (hf : ∀ x ∈ xs, ∀ y ∈ ys, f x = f y → x = y) (h : xs.map f = ys.map f) : xs = ys := by
  induction xs generalizing ys with
  | nil => simpa [eq_comm] using h
  | cons x xs ih =>
    cases ys with
    | nil => simp at h
    | cons y ys =>
      obtain ⟨hhead, htail⟩ := List.cons.inj h
      obtain rfl := hf x List.mem_cons_self y List.mem_cons_self hhead
      rw [ih (fun a ha b hb => hf a (List.mem_cons_of_mem x ha) b (List.mem_cons_of_mem x hb))
        htail]

theorem notMem_of_isDigit {stops : List Char} (h : ∀ c ∈ stops, c.isDigit = false) {c : Char}
    (hdigit : c.isDigit = true) : c ∉ stops := by
  intro hc
  rw [h c hc] at hdigit
  exact Bool.false_ne_true hdigit

theorem notMem_separators_of_isDigit {c : Char} (h : c.isDigit = true) : c ∉ separators :=
  notMem_of_isDigit (by simp [separators]) h

theorem avoids_toString_nat {stops : List Char} (h : ∀ c ∈ stops, c.isDigit = false) (n : Nat) :
    Avoids stops (toString n) := by
  intro c hc
  rw [Nat.toString_eq_repr, Nat.toList_repr] at hc
  exact notMem_of_isDigit h (Nat.isDigit_of_mem_toDigits (by decide) (by decide) hc)

theorem isWord_toString_nat (n : Nat) : IsWord (toString n) := by
  refine ⟨?_, avoids_toString_nat (by simp [separators]) n⟩
  rw [Nat.toString_eq_repr]
  exact Nat.repr_ne_empty

theorem isWord_append_left {s t : String} (hs : Avoids separators s) (ht : IsWord t) :
    IsWord (s ++ t) :=
  ⟨fun he => ht.1 (String.append_eq_empty_iff.mp he).2, avoids_append.mpr ⟨hs, ht.2⟩⟩

theorem isWord_append_right {s t : String} (hs : IsWord s) (ht : Avoids separators t) :
    IsWord (s ++ t) :=
  ⟨fun he => hs.1 (String.append_eq_empty_iff.mp he).1, avoids_append.mpr ⟨hs.2, ht⟩⟩

theorem isWord_toString_int (z : Int) : IsWord (toString z) := by
  rw [Int.toString_eq_repr, Int.repr_eq_if]
  split
  · exact isWord_toString_nat _
  · exact isWord_append_left (by decide) (isWord_toString_nat _)

namespace Decimal

section
variable {P : Char → Prop} (hdigit : ∀ c, c.isDigit = true → P c)
include hdigit

theorem forall_mem_replicate_zero (n : Nat) : ∀ c ∈ List.replicate n '0', P c := by
  intro c hc
  rw [List.eq_of_mem_replicate hc]
  exact hdigit '0' (by decide)

theorem forall_mem_toDigits (n : Nat) : ∀ c ∈ Nat.toDigits 10 n, P c := fun _ hc =>
  hdigit _ (Nat.isDigit_of_mem_toDigits (by decide) (by decide) hc)

theorem forall_mem_positional (hpoint : P '.') {ds : List Char} (h : ∀ c ∈ ds, P c)
    (lead : Int) : ∀ c ∈ positional ds lead, P c := by
  have hzeros := forall_mem_replicate_zero hdigit
  unfold positional
  split
  · rw [List.forall_mem_cons, List.forall_mem_cons, List.forall_mem_append]
    exact ⟨hdigit '0' (by decide), hpoint, hzeros _, h⟩
  · dsimp only
    rw [List.forall_mem_append, List.forall_mem_append, List.forall_mem_cons]
    refine ⟨⟨fun c hc => h c (List.mem_of_mem_take hc), hzeros _⟩, hpoint, ?_⟩
    split
    · exact hzeros 1
    · exact fun c hc => h c (List.mem_of_mem_drop hc)

theorem forall_mem_scientific (hmark : ∀ c ∈ ['.', 'e', '+', '-'], P c) {ds : List Char}
    (h : ∀ c ∈ ds, P c) (lead : Int) : ∀ c ∈ scientific ds lead, P c := by
  have hpadded : ∀ c ∈ paddedDigits 2 lead.natAbs, P c := by
    unfold paddedDigits
    rw [List.forall_mem_append]
    exact ⟨forall_mem_replicate_zero hdigit _, forall_mem_toDigits hdigit _⟩
  unfold scientific
  dsimp only
  rw [List.forall_mem_append, List.forall_mem_append, List.forall_mem_cons, List.forall_mem_cons]
  refine ⟨⟨fun c hc => h c (List.mem_of_mem_take hc), ?_⟩, hmark 'e' (by decide), ?_, hpadded⟩
  · split
    · simp
    · rw [List.forall_mem_cons]
      exact ⟨hmark '.' (by decide), fun c hc => h c (List.mem_of_mem_drop hc)⟩
  · split
    · exact hmark '-' (by decide)
    · exact hmark '+' (by decide)

/-- The text of a decimal has digits, a point, the mark of an exponent and its sign. -/
theorem forall_mem_text (hmark : ∀ c ∈ ['.', 'e', '+', '-'], P c) (d : Decimal) :
    ∀ c ∈ d.text, P c := by
  have hdigits := forall_mem_toDigits hdigit d.digits
  unfold text
  dsimp only
  split
  · exact forall_mem_positional hdigit (hmark '.' (by decide)) hdigits _
  · exact forall_mem_scientific hdigit hmark hdigits _

end

theorem isWord_text (d : Decimal) : IsWord (String.ofList d.text) := by
  constructor
  · unfold text
    dsimp only
    split
    · unfold positional
      split <;> simp [← String.toList_inj]
    · simp [scientific, ← String.toList_inj]
  · intro c hc
    rw [String.toList_ofList] at hc
    exact forall_mem_text (fun _ => notMem_separators_of_isDigit) (by simp [separators]) d c hc

end Decimal

theorem Binary64.avoids_signText {stops : List Char} (h : '-' ∉ stops) (x : Binary64) :
    Avoids stops x.signText := by
  unfold signText
  split
  · simpa [Avoids] using h
  · simp [Avoids]

theorem Binary64.isWord_literal (x : Binary64) : IsWord x.literal := by
  refine isWord_append_left (x.avoids_signText (by decide)) ?_
  split
  · decide
  · split
    · decide
    · exact Decimal.isWord_text _

theorem PiMultiple.isWord_text (m : PiMultiple) : IsWord m.text := by
  have htop : IsWord (if m.numerator = 1 then "pi"
      else if m.numerator = -1 then "-pi" else toString m.numerator ++ "*pi") := by
    split
    · decide
    · split
      · decide
      · exact isWord_append_right (isWord_toString_int _) (by decide)
  unfold text
  dsimp only
  split
  · exact htop
  · exact isWord_append_left (avoids_append.mpr ⟨htop.2, by decide⟩) (isWord_toString_nat _)

theorem Binary64.isWord_angleText (x : Binary64) (fold : Bool) : IsWord (x.angleText fold) := by
  unfold angleText piText?
  split
  · cases PiMultiple.of? x with
    | none => exact x.isWord_literal
    | some m => exact m.isWord_text
  · exact x.isWord_literal

/-- The text of a size or an index, if there is one. -/
def optionalSizeText : Option UInt64 → String
  | some n => sizeText n
  | none => ""

theorem sizeText_append_inj {m n : UInt64} {u v : String}
    (h : sizeText m ++ u = sizeText n ++ v) : m = n ∧ u = v := by
  have hdigits : toString m.toNat ++ ("]" ++ u) = toString n.toNat ++ ("]" ++ v) := by
    apply (String.append_right_inj "[").mp
    simpa [sizeText, String.append_assoc] using h
  have hclose (k : UInt64) : Avoids [']'] (toString k.toNat) :=
    (isWord_toString_nat k.toNat).2.mono (by decide)
  obtain ⟨hm, hrest⟩ := text_append_inj (hclose m) (hclose n) (by simp [BeginsIn])
    (by simp [BeginsIn]) hdigits
  exact ⟨UInt64.toNat_inj.mp (Nat.repr_injective hm), (String.append_right_inj "]").mp hrest⟩

/-- A size is left out where no bracket follows. -/
theorem optionalSizeText_append_inj {m n : Option UInt64} {u v : String}
    (hu : BeginsIn [' '] u) (hv : BeginsIn [' '] v)
    (h : optionalSizeText m ++ u = optionalSizeText n ++ v) : m = n ∧ u = v := by
  have hne {k : UInt64} {s t : String} (hs : BeginsIn [' '] s) : s ≠ sizeText k ++ t := by
    rintro rfl
    have := hs '[' (by simp [sizeText])
    simp at this
  cases m with
  | none =>
    cases n with
    | none => exact ⟨rfl, by simpa [optionalSizeText] using h⟩
    | some l => exact absurd (by simpa [optionalSizeText] using h) (hne hu)
  | some k =>
    cases n with
    | none => exact absurd (by simpa [optionalSizeText] using h.symm) (hne hv)
    | some l =>
      obtain ⟨rfl, hrest⟩ := sizeText_append_inj h
      exact ⟨rfl, hrest⟩

theorem avoids_optionalSizeText {stops : List Char} (hsub : stops ⊆ separators)
    (hopen : '[' ∉ stops) (hclose : ']' ∉ stops) (n : Option UInt64) :
    Avoids stops (optionalSizeText n) := by
  cases n with
  | none => simp [optionalSizeText, Avoids]
  | some k =>
    simp only [optionalSizeText, sizeText, avoids_append]
    refine ⟨⟨?_, (isWord_toString_nat k.toNat).2.mono hsub⟩, ?_⟩
    · simpa [Avoids] using hopen
    · simpa [Avoids] using hclose

theorem beginsIn_optionalSizeText (n : Option UInt64) : BeginsIn ['['] (optionalSizeText n) := by
  cases n <;> simp [optionalSizeText, sizeText, BeginsIn]

namespace Operand
variable {o o' : Operand}

theorem text_eq (o : Operand) : o.text = o.name ++ optionalSizeText o.index := by
  obtain ⟨name, _ | index⟩ := o <;> simp [text, optionalSizeText]

theorem isItem_text (h : IsWord o.name) : IsItem o.text := by
  rw [text_eq]
  refine ⟨fun he => h.1 (String.append_eq_empty_iff.mp he).1, avoids_append.mpr ⟨?_, ?_⟩⟩
  · exact h.2.mono (by decide)
  · exact avoids_optionalSizeText (by decide) (by decide) (by decide) _

theorem text_inj (h : IsWord o.name) (h' : IsWord o'.name) (he : o.text = o'.text) : o = o' := by
  rw [text_eq, text_eq] at he
  obtain ⟨hname, hindex⟩ := text_append_inj (h.2.mono (by decide)) (h'.2.mono (by decide))
    (beginsIn_optionalSizeText o.index) (beginsIn_optionalSizeText o'.index) he
  obtain ⟨hindex, -⟩ := optionalSizeText_append_inj (m := o.index) (n := o'.index)
    (u := "") (v := "") (by simp [BeginsIn]) (by simp [BeginsIn]) (by simpa using hindex)
  obtain ⟨name, index⟩ := o
  obtain ⟨name', index'⟩ := o'
  exact (mk.injEq ..).mpr ⟨hname, hindex⟩

theorem map_text_inj {os os' : List Operand} (h : ∀ o ∈ os, IsWord o.name)
    (h' : ∀ o ∈ os', IsWord o.name) (he : os.map text = os'.map text) : os = os' :=
  eq_of_map_eq (fun o ho o' ho' => text_inj (h o ho) (h' o' ho')) he

theorem forall_isItem_text {os : List Operand} (h : ∀ o ∈ os, IsWord o.name) :
    ∀ t ∈ os.map text, IsItem t := by
  intro t ht
  obtain ⟨o, ho, rfl⟩ := List.mem_map.mp ht
  exact isItem_text (h o ho)

end Operand

/-- Lines that hold no newline are read back from their text. -/
theorem textOfLines_inj {xs ys : List String} (hxs : ∀ line ∈ xs, Avoids ['\n'] line)
    (hys : ∀ line ∈ ys, Avoids ['\n'] line) (h : textOfLines xs = textOfLines ys) : xs = ys := by
  have hne (line : String) (rest : List String) : textOfLines (line :: rest) ≠ "" := by
    simp [String.append_eq_empty_iff]
  induction xs generalizing ys with
  | nil =>
    cases ys with
    | nil => rfl
    | cons y ys => exact absurd h.symm (hne y ys)
  | cons x xs ih =>
    cases ys with
    | nil => exact absurd h (hne x xs)
    | cons y ys =>
      rw [textOfLines_cons, textOfLines_cons, String.append_assoc, String.append_assoc] at h
      obtain ⟨rfl, hrest⟩ := text_append_inj (hxs x List.mem_cons_self)
        (hys y List.mem_cons_self) (by simp [BeginsIn]) (by simp [BeginsIn]) h
      rw [ih (fun t ht => hxs t (List.mem_cons_of_mem x ht))
        (fun t ht => hys t (List.mem_cons_of_mem x ht)) ((String.append_right_inj "\n").mp hrest)]

end OpenQasm
