/-
  Proofs/Spelling.lean --- phrases that can be written down.

  WHAT THIS FILE IS FOR.  Not every tree has a text: a name in it has to be a name, a text
  has to do without one of the quotes, and a filter filters by something.  These conditions
  are all there are, for the words of a phrase that meets them are read back as its tokens.
-/
import XmlTree.Proofs.Lexing

set_option autoImplicit false

namespace XmlTree

/-! ## Phrases that can be written -/

/-- A text that can be put in quotes. -/
def IsQuotable (s : List Char) : Prop := '"' ∉ s ∨ '\'' ∉ s

/-- A node test whose names are names. -/
def NodeTest.Spellable : NodeTest → Prop
  | name n =>
    IsPlainName n.toList ∨
      ∃ space name, IsPlainName space ∧ IsPlainName name ∧ n.toList = space ++ ':' :: name
  | inNamespace start => ∃ space, IsPlainName space ∧ start.toList = space ++ [':']
  | pi (some target) => IsQuotable target.toList
  | any | node | text | comment | pi none => True

/-- A phrase whose names are names, whose numbers have digits, and whose filters have
predicates. -/
inductive Phrase.Spellable : Phrase → Prop where
  | root : Spellable .root
  | step (axis : Axis) {test : NodeTest} {predicates : List Phrase} (htest : test.Spellable)
      (hpredicates : ∀ p ∈ predicates, Spellable p) : Spellable (.step axis test predicates)
  | path {input : Phrase} (axis : Axis) {test : NodeTest} {predicates : List Phrase}
      (hinput : Spellable input) (htest : test.Spellable)
      (hpredicates : ∀ p ∈ predicates, Spellable p) :
      Spellable (.path input axis test predicates)
  | filter {base : Phrase} {predicates : List Phrase} (hbase : Spellable base)
      (hne : predicates ≠ []) (hpredicates : ∀ p ∈ predicates, Spellable p) :
      Spellable (.filter base predicates)
  | call (f : CoreFunction) {arguments : List Phrase} (harguments : ∀ p ∈ arguments, Spellable p) :
      Spellable (.call f arguments)
  | binary (op : BinaryOp) {left right : Phrase} (hleft : Spellable left)
      (hright : Spellable right) : Spellable (.binary op left right)
  | negate {operand : Phrase} (hoperand : Spellable operand) : Spellable (.negate operand)
  | number {whole : List Char} {fraction : Option (List Char)}
      (hwhole : ∀ c ∈ whole, c.isDigit = true)
      (hfraction : ∀ c ∈ fraction.getD [], c.isDigit = true)
      (hdigits : whole = [] → fraction.getD [] ≠ []) : Spellable (.number whole fraction)
  | string {value : String} (h : IsQuotable value.toList) : Spellable (.string value)

/-! ## Words -/

instance (n : List Char) : Decidable (IsPlainName n) :=
  decidable_of_iff (n.head?.any Token.startsName && n.tail.all Token.continuesName) <| by
    cases n with
    | nil => exact ⟨nofun, nofun⟩
    | cons c cs =>
      rw [Bool.and_eq_true, List.all_eq_true]
      exact ⟨fun h => ⟨c, cs, rfl, h.1, h.2⟩, fun ⟨_, _, heq, h⟩ => by cases heq; exact h⟩

theorem Axis.isPlainName_spelled (axis : Axis) : IsPlainName axis.spelled.toList := by
  cases axis <;> decide

theorem CoreFunction.isPlainName_spelled (f : CoreFunction) : IsPlainName f.spelled.toList := by
  cases f <;> decide

namespace Word

theorem valid_slash : slash.Valid := .sign (List.mem_of_getElem? (i := 0) rfl)
theorem valid_doubleColon : doubleColon.Valid := .sign (List.mem_of_getElem? (i := 1) rfl)
theorem valid_comma : comma.Valid := .sign (List.mem_of_getElem? (i := 2) rfl)
theorem valid_star : star.Valid := .sign (List.mem_of_getElem? (i := 3) rfl)
theorem valid_minus : minus.Valid := .sign (List.mem_of_getElem? (i := 4) rfl)
theorem valid_leftParen : leftParen.Valid := .sign (List.mem_of_getElem? (i := 5) rfl)
theorem valid_rightParen : rightParen.Valid := .sign (List.mem_of_getElem? (i := 6) rfl)
theorem valid_leftBracket : leftBracket.Valid := .sign (List.mem_of_getElem? (i := 7) rfl)
theorem valid_rightBracket : rightBracket.Valid := .sign (List.mem_of_getElem? (i := 8) rfl)

theorem valid_plainName {n : List Char} (h : IsPlainName n) : (name n).Valid := .name (.inl h)

/-- Parentheses are valid around valid words. -/
theorem valid_grouped {bare : Bool} {ws : List Word} (h : ∀ w ∈ ws, w.Valid) :
    ∀ w ∈ grouped bare ws, w.Valid := by
  cases bare with
  | true => exact h
  | false =>
    exact List.forall_mem_cons.2 ⟨valid_leftParen, List.forall_mem_append.2
      ⟨h, List.forall_mem_singleton.2 valid_rightParen⟩⟩

end Word

theorem BinaryOp.valid_word (op : BinaryOp) : op.word.Valid := by
  cases op with
  | or | and | div | mod => exact Word.valid_plainName (by decide)
  | sub => exact Word.valid_minus
  | mul => exact Word.valid_star
  | eq => exact .sign (List.mem_of_getElem? (i := 9) rfl)
  | notEq => exact .sign (List.mem_of_getElem? (i := 10) rfl)
  | lt => exact .sign (List.mem_of_getElem? (i := 11) rfl)
  | ltEq => exact .sign (List.mem_of_getElem? (i := 12) rfl)
  | gt => exact .sign (List.mem_of_getElem? (i := 13) rfl)
  | gtEq => exact .sign (List.mem_of_getElem? (i := 14) rfl)
  | add => exact .sign (List.mem_of_getElem? (i := 15) rfl)
  | union => exact .sign (List.mem_of_getElem? (i := 16) rfl)

theorem NodeTest.valid_words {test : NodeTest} (h : test.Spellable) :
    ∀ w ∈ test.words, w.Valid := by
  have hkind : ∀ kind : String, IsPlainName kind.toList →
      ∀ w ∈ [Word.name kind.toList, .leftParen, .rightParen], w.Valid := by
    intro kind hname
    simpa using ⟨Word.valid_plainName hname, Word.valid_leftParen, Word.valid_rightParen⟩
  cases test with
  | any => exact List.forall_mem_singleton.2 Word.valid_star
  | name n =>
    refine List.forall_mem_singleton.2 (.name ?_)
    rcases h with hplain | ⟨space, local_, hspace, hlocal, heq⟩
    · exact .inl hplain
    · exact .inr ⟨space, local_, hspace, .inl hlocal, heq⟩
  | inNamespace start =>
    obtain ⟨space, hspace, heq⟩ := h
    refine List.forall_mem_singleton.2 (.name (.inr ⟨space, ['*'], hspace, .inr rfl, ?_⟩))
    rw [heq, List.append_assoc]
    rfl
  | node => exact hkind "node" (by decide)
  | text => exact hkind "text" (by decide)
  | comment => exact hkind "comment" (by decide)
  | pi target =>
    cases target with
    | none => exact hkind "processing-instruction" (by decide)
    | some target =>
      simpa [words] using ⟨Word.valid_plainName (by decide), Word.valid_leftParen,
        Word.Valid.quoted h, Word.valid_rightParen⟩

theorem Axis.valid_stepWords {axis : Axis} {test : NodeTest} (h : test.Spellable) :
    ∀ w ∈ axis.stepWords test, w.Valid :=
  List.forall_mem_cons.2 ⟨Word.valid_plainName axis.isPlainName_spelled,
    List.forall_mem_cons.2 ⟨Word.valid_doubleColon, NodeTest.valid_words h⟩⟩

namespace Phrase

variable {minus : Nat} {ps : List Phrase}

theorem valid_predicateWords (h : ∀ p ∈ ps, ∀ w ∈ p.words minus, w.Valid) :
    ∀ w ∈ predicateWords minus ps, w.Valid := by
  induction ps with
  | nil => exact nofun
  | cons p ps ih =>
    rw [List.forall_mem_cons] at h
    exact List.forall_mem_cons.2 ⟨Word.valid_leftBracket, List.forall_mem_append.2 ⟨h.1,
      List.forall_mem_cons.2 ⟨Word.valid_rightBracket, ih h.2⟩⟩⟩

theorem valid_argumentWords {first : Bool} (h : ∀ p ∈ ps, ∀ w ∈ p.words minus, w.Valid) :
    ∀ w ∈ argumentWords minus first ps, w.Valid := by
  induction ps generalizing first with
  | nil => exact List.forall_mem_singleton.2 Word.valid_rightParen
  | cons p ps ih =>
    rw [List.forall_mem_cons] at h
    refine List.forall_mem_append.2 ⟨?_, List.forall_mem_append.2 ⟨h.1, ih h.2⟩⟩
    cases first with
    | true => exact nofun
    | false => exact List.forall_mem_singleton.2 Word.valid_comma

/-- All words of a phrase that can be written are valid. -/
theorem Spellable.valid_words {p : Phrase} (h : p.Spellable) :
    ∀ w ∈ p.words minus, w.Valid := by
  induction h with
  | root => exact List.forall_mem_singleton.2 Word.valid_slash
  | step axis htest _ ih =>
    rw [words]
    exact List.forall_mem_append.2 ⟨Axis.valid_stepWords htest, valid_predicateWords ih⟩
  | @path input axis test predicates _ htest _ ihinput ih =>
    rw [words]
    refine List.forall_mem_append.2 ⟨?_, List.forall_mem_append.2
      ⟨Axis.valid_stepWords htest, valid_predicateWords ih⟩⟩
    have hslash : ∀ w ∈ [Word.slash], w.Valid := List.forall_mem_singleton.2 Word.valid_slash
    split
    · exact hslash
    · exact List.forall_mem_append.2 ⟨Word.valid_grouped ihinput, hslash⟩
  | filter _ _ _ ihbase ih =>
    rw [words]
    exact List.forall_mem_append.2 ⟨Word.valid_grouped ihbase, valid_predicateWords ih⟩
  | call f _ ih =>
    rw [words]
    exact List.forall_mem_cons.2 ⟨Word.valid_plainName f.isPlainName_spelled,
      List.forall_mem_cons.2 ⟨Word.valid_leftParen, valid_argumentWords ih⟩⟩
  | binary op _ _ ihleft ihright =>
    rw [words]
    exact List.forall_mem_append.2 ⟨Word.valid_grouped ihleft,
      List.forall_mem_cons.2 ⟨op.valid_word, Word.valid_grouped ihright⟩⟩
  | negate _ ih =>
    rw [words]
    exact List.forall_mem_cons.2 ⟨Word.valid_minus, Word.valid_grouped ih⟩
  | number hwhole hfraction hdigits =>
    exact List.forall_mem_singleton.2 (.numeral hwhole hfraction hdigits)
  | string h => exact List.forall_mem_singleton.2 (.quoted h)

/-! ## A minus before a union -/

theorem strength_of_isUnion {p : Phrase} (h : p.isUnion = false) : p.strength ≠ 7 := by
  cases p with
  | binary op left right =>
    cases op with
    | union => cases h
    | _ => exact nofun
  | _ => exact nofun

theorem exists_operands_of_isUnion {p : Phrase} (h : p.isUnion = true) :
    ∃ l r, p = .binary .union l r := by
  cases p with
  | binary op left right =>
    cases op with
    | union => exact ⟨left, right, rfl⟩
    | _ => cases h
  | _ => cases h

theorem predicateWords_congr
    (h : ∀ p ∈ ps, p.negatesUnion = false → p.words 6 = p.words 7)
    (hps : anyNegatesUnion ps = false) : predicateWords 6 ps = predicateWords 7 ps := by
  induction ps with
  | nil => rfl
  | cons p ps ih =>
    rw [List.forall_mem_cons] at h
    rw [anyNegatesUnion, Bool.or_eq_false_iff] at hps
    rw [predicateWords, predicateWords, h.1 hps.1, ih h.2 hps.2]

theorem argumentWords_congr {first : Bool}
    (h : ∀ p ∈ ps, p.negatesUnion = false → p.words 6 = p.words 7)
    (hps : anyNegatesUnion ps = false) : argumentWords 6 first ps = argumentWords 7 first ps := by
  induction ps generalizing first with
  | nil => rfl
  | cons p ps ih =>
    rw [List.forall_mem_cons] at h
    rw [anyNegatesUnion, Bool.or_eq_false_iff] at hps
    rw [argumentWords, argumentWords, h.1 hps.1, ih h.2 hps.2]

/-- Only a union that is negated makes a difference to how tightly a minus binds. -/
theorem Spellable.words_congr {p : Phrase} (h : p.Spellable) (hp : p.negatesUnion = false) :
    p.words 6 = p.words 7 := by
  induction h with
  | root => rfl
  | step axis _ _ ih =>
    rw [negatesUnion] at hp
    rw [words, words, predicateWords_congr ih hp]
  | path axis _ _ _ ihinput ih =>
    rw [negatesUnion, Bool.or_eq_false_iff] at hp
    rw [words, words, ihinput hp.1, predicateWords_congr ih hp.2]
  | filter _ _ _ ihbase ih =>
    rw [negatesUnion, Bool.or_eq_false_iff] at hp
    rw [words, words, ihbase hp.1, predicateWords_congr ih hp.2]
  | call f _ ih =>
    rw [negatesUnion] at hp
    rw [words, words, argumentWords_congr ih hp]
  | binary op _ _ ihleft ihright =>
    rw [negatesUnion, Bool.or_eq_false_iff] at hp
    rw [words, words, ihleft hp.1, ihright hp.2]
  | @negate operand _ ih =>
    rw [negatesUnion, Bool.or_eq_false_iff] at hp
    have hbinds : (6 < operand.strength) = (7 < operand.strength) := by
      have hne := strength_of_isUnion hp.1
      exact propext (by omega)
    simp only [words, ih hp.2, hbinds]
  | number _ _ _ => rfl
  | string _ => rfl

end Phrase

end XmlTree
