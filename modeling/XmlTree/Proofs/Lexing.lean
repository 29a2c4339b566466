/-
  Proofs/Lexing.lean --- words are read back from their letters.

  WHAT THIS FILE IS FOR.  A text that is written in words, with any white space between them,
  is cut into the tokens of the words, as long as no word runs into what follows it.  A name
  runs on with more letters of a name, and with a colon that is followed by another name; a
  number with a digit or a point; a slash, `<` and `>` with one more character of theirs.

  PARENTHESES.  With each token it is noted whether `(` comes next.  That is so exactly if
  the next token is that parenthesis, whatever white space is before it.
-/
import XmlTree.Proofs.Cursors
import XmlTree.Proofs.Phrases

set_option autoImplicit false

namespace XmlTree

/-! ## Names -/

/-- A name without a colon. -/
def IsPlainName (n : List Char) : Prop :=
  ∃ c cs, n = c :: cs ∧ Token.startsName c = true ∧ ∀ x ∈ cs, Token.continuesName x = true

/-- A name, a name in a namespace, or a namespace with a star. -/
def IsWordName (n : List Char) : Prop :=
  IsPlainName n ∨
    ∃ space name, IsPlainName space ∧ (IsPlainName name ∨ name = ['*']) ∧
      n = space ++ ':' :: name

/-! ## What a word does not run into -/

/-- Whether a text begins with no character of a kind. -/
def headIsNot (p : Char → Bool) (text : List Char) : Bool := text.head?.all fun c => !p c

/-- Whether the letters of a token end where the rest of a text begins. -/
def Token.Apart : Token → List Char → Prop
  | .name _, rest =>
    headIsNot continuesName rest = true ∧
      -- a colon has to be the first of two
      (rest.head? = some ':' → ∃ more, rest = ':' :: ':' :: more)
  | .number _, rest => headIsNot (fun c => c.isDigit || c == '.') rest = true
  | .lt, rest | .gt, rest => headIsNot (· == '=') rest = true
  | .slash, rest => headIsNot (· == '/') rest = true
  | _, _ => True

/-- White space and the end of the text keep all words apart. -/
theorem Token.apart_of_space {t : Token} {rest : List Char}
    (h : rest.head?.all isSpace = true) : t.Apart rest := by
  cases rest with
  | nil => cases t <;> simp [Apart, headIsNot]
  | cons c cs =>
    have hc : isSpace c = true := by simpa using h
    have hclass : c = ' ' ∨ c = '\t' ∨ c = '\n' ∨ c = '\r' := by
      simpa [isSpace, or_assoc] using hc
    rcases hclass with rfl | rfl | rfl | rfl <;>
      cases t <;> simp [Apart, headIsNot, continuesName, startsName]

namespace Word

/-- The words that are always written alike. -/
def signs : List Word :=
  [slash, doubleColon, comma, star, minus, leftParen, rightParen, leftBracket, rightBracket,
    sign .eq "=", sign .notEq "!=", sign .lt "<", sign .ltEq "<=", sign .gt ">", sign .gtEq ">=",
    sign .plus "+", sign .pipe "|"]

/-- A word that is written as it should be. -/
inductive Valid : Word → Prop where
  | sign {w : Word} (h : w ∈ signs) : Valid w
  | name {n : List Char} (h : IsWordName n) : Valid (name n)
  | quoted {s : List Char} (h : '"' ∉ s ∨ '\'' ∉ s) : Valid (quoted s)
  | numeral {whole : List Char} {fraction : Option (List Char)}
      (hwhole : ∀ c ∈ whole, c.isDigit = true)
      (hfraction : ∀ c ∈ fraction.getD [], c.isDigit = true)
      (hdigits : whole = [] → fraction.getD [] ≠ []) : Valid (numeral whole fraction)

end Word

/-! ## One token -/

namespace Token

variable {c : Char} {cs rest : List Char}

theorem nameLength_plain {n : List Char} (hn : IsPlainName n)
    (hrest : headIsNot continuesName rest = true)
    (hcolon : rest.head? = some ':' → ∃ more, rest = ':' :: ':' :: more) :
    nameLength (n ++ rest) = n.length := by
  obtain ⟨c, cs, rfl, hc, hcs⟩ := hn
  have hall : ∀ x ∈ c :: cs, continuesName x = true :=
    List.forall_mem_cons.2 ⟨by simp [continuesName, hc], hcs⟩
  have hfirst := takeWhile_append_of_head hall hrest
  unfold nameLength
  simp only [hfirst, List.drop_left]
  cases rest with
  | nil => rfl
  | cons d ds =>
    by_cases hd : d = ':'
    · subst hd
      obtain ⟨more, hmore⟩ := hcolon rfl
      cases hmore
      rfl
    · split
      · rename_i heq
        cases heq
        exact absurd rfl hd
      · rename_i heq
        cases heq
        exact absurd rfl hd
      · rfl

theorem nameLength_prefixed {space name : List Char} (hspace : IsPlainName space)
    (hname : IsPlainName name ∨ name = ['*'])
    (hrest : headIsNot continuesName rest = true) :
    nameLength (space ++ ':' :: (name ++ rest)) = space.length + 1 + name.length := by
  obtain ⟨c, cs, rfl, hc, hcs⟩ := hspace
  have hall : ∀ x ∈ c :: cs, continuesName x = true :=
    List.forall_mem_cons.2 ⟨by simp [continuesName, hc], hcs⟩
  have hfirst : (c :: cs ++ ':' :: (name ++ rest)).takeWhile continuesName = c :: cs :=
    takeWhile_append_of_head hall rfl
  unfold nameLength
  simp only [hfirst, List.drop_left]
  rcases hname with ⟨d, ds, rfl, hd, hds⟩ | rfl
  · have hstar : d ≠ '*' := by
      rintro rfl
      exact absurd hd (by decide)
    have hsecond : (ds ++ rest).takeWhile continuesName = ds :=
      takeWhile_append_of_head hds hrest
    rw [List.cons_append]
    split
    · rename_i heq
      cases heq
      exact absurd rfl hstar
    · rename_i heq
      injection heq with _ heq
      injection heq with hchar hlist
      subst hchar hlist
      rw [if_pos hd, hsecond]
      simp only [List.length_cons]
      omega
    · rename_i hno
      exact absurd rfl (hno d (ds ++ rest))
  · rfl

theorem nameLength_word {n : List Char} (hn : IsWordName n) (hrest : (name n).Apart rest) :
    nameLength (n ++ rest) = n.length := by
  obtain ⟨hhead, hcolon⟩ := hrest
  rcases hn with hplain | ⟨space, local_, hspace, hlocal, rfl⟩
  · exact nameLength_plain hplain hhead hcolon
  · rw [List.append_assoc, List.cons_append, nameLength_prefixed hspace hlocal hhead,
      List.length_append, List.length_cons]
    omega

theorem isDigit_of_startsName (h : startsName c = true) : c.isDigit = false := by
  delta startsName Char.isAlpha Char.isUpper Char.isLower at h
  simp only [Bool.or_eq_true, decide_eq_true_eq, beq_iff_eq, Bool.and_eq_true, ge_iff_le,
    UInt32.le_iff_toNat_le, Char.toNat] at h
  simp only [Char.isDigit, Bool.and_eq_false_iff, decide_eq_false_iff_not, ge_iff_le,
    UInt32.le_iff_toNat_le]
  rcases h with (hletter | hline) | hbeyond
  · simp at hletter ⊢
    omega
  · subst hline
    simp
  · simp at hbeyond ⊢
    omega

/-- A character that a name does not begin with is not the first one of a name. -/
theorem beq_of_startsName {d : Char} (h : startsName c = true) (hd : startsName d = false) :
    (c == d) = false := by
  rw [beq_eq_false_iff_ne]
  rintro rfl
  rw [h] at hd
  cases hd

theorem isSpace_of_startsName (h : startsName c = true) : isSpace c = false := by
  simp [isSpace, beq_of_startsName h (rfl : startsName ' ' = false),
    beq_of_startsName h (rfl : startsName '\t' = false),
    beq_of_startsName h (rfl : startsName '\n' = false),
    beq_of_startsName h (rfl : startsName '\r' = false)]

theorem scan_of_startsName (h : startsName c = true) :
    scan c cs = (.name ((c :: cs).take (nameLength (c :: cs))), nameLength (c :: cs)) := by
  have hquote : c ≠ '"' ∧ c ≠ '\'' := by
    constructor <;> (rintro rfl; exact absurd h (by decide))
  unfold scan
  split
  all_goals first
    | exact absurd h (by decide)
    | simp [hquote, isDigit_of_startsName h, h]

/-- Only one character is read as an opening parenthesis. -/
theorem scan_eq_leftParen_iff : (scan c cs).1 = .leftParen ↔ c = '(' := by
  constructor
  · intro h
    unfold scan at h
    grind
  · rintro rfl
    rfl

theorem isSpace_of_isDigit (h : c.isDigit = true) : isSpace c = false := by
  rw [Bool.eq_false_iff]
  intro hspace
  have hclass : c = ' ' ∨ c = '\t' ∨ c = '\n' ∨ c = '\r' := by
    simpa [isSpace, or_assoc] using hspace
  rcases hclass with rfl | rfl | rfl | rfl <;> exact absurd h (by decide)

theorem scan_of_isDigit (h : c.isDigit = true) :
    scan c cs = (.number (scanNumber (c :: cs)).2, (scanNumber (c :: cs)).1) := by
  have hquote : c ≠ '"' ∧ c ≠ '\'' := by
    constructor <;> (rintro rfl; exact absurd h (by decide))
  unfold scan
  split
  all_goals first
    | exact absurd h (by decide)
    | simp [hquote, h]

theorem scanNumber_numeral {whole : List Char} {fraction : Option (List Char)}
    (hwhole : ∀ c ∈ whole, c.isDigit = true)
    (hfraction : ∀ c ∈ fraction.getD [], c.isDigit = true)
    (hrest : headIsNot (fun c => c.isDigit || c == '.') rest = true) :
    scanNumber ((Word.numeral whole fraction).letters ++ rest)
      = ((Word.numeral whole fraction).letters.length,
          .ofParts false whole (fraction.getD []) 0) := by
  have hdigit : rest.head?.all (fun c => !c.isDigit) = true := by
    cases rest with
    | nil => rfl
    | cons c cs =>
      have hc : (!(c.isDigit || c == '.')) = true := hrest
      rw [Bool.not_or, Bool.and_eq_true] at hc
      exact hc.1
  cases fraction with
  | none =>
    have hfirst := takeWhile_append_of_head hwhole hdigit
    have hletters : (Word.numeral whole none).letters = whole := List.append_nil whole
    rw [hletters]
    unfold scanNumber
    simp only [hfirst, List.drop_left]
    split
    · -- the rest does not begin with a point
      rename_i more
      exact absurd hrest (by simp [headIsNot])
    · rfl
  | some digits =>
    have hletters : (Word.numeral whole (some digits)).letters = whole ++ '.' :: digits := rfl
    have hfirst : (whole ++ '.' :: (digits ++ rest)).takeWhile Char.isDigit = whole :=
      takeWhile_append_of_head hwhole rfl
    have hsecond : (digits ++ rest).takeWhile Char.isDigit = digits :=
      takeWhile_append_of_head hfraction hdigit
    rw [hletters, List.append_assoc, List.cons_append]
    unfold scanNumber
    simp only [hfirst, List.drop_left, hsecond, List.length_append, List.length_cons]
    exact Prod.ext (by omega) rfl

end Token

namespace Word

variable {w : Word} {rest : List Char}

theorem mem_of_infix_singleton {q : Char} {s : List Char} (h : [q] <:+: s) : q ∈ s :=
  h.subset (List.mem_singleton.2 rfl)

/-- A text in quotes ends at the first quote after it. -/
theorem scan_quote {q : Char} (hq : q = '"' ∨ q = '\'') {s : List Char} (hs : q ∉ s)
    (rest : List Char) : Token.scan q (s ++ q :: rest) = (.string s, s.length + 2) := by
  have hcut : cutAt? [q] (s ++ q :: rest) = some (s, rest) := by
    have hmark : Unbordered [q] := by
      rcases hq with rfl | rfl <;> decide
    exact cutAt?_append rest hmark fun hin => hs (mem_of_infix_singleton hin)
  rcases hq with rfl | rfl <;> simp [Token.scan, hcut]

theorem scan_quoted {s : List Char} (h : '"' ∉ s ∨ '\'' ∉ s) (rest : List Char) :
    ∃ c cs, (quoted s).letters = c :: cs ∧ isSpace c = false ∧
      Token.scan c (cs ++ rest) = (.string s, (quoted s).letters.length) := by
  obtain ⟨q, hq, hs, hletters⟩ : ∃ q : Char, (q = '"' ∨ q = '\'') ∧ q ∉ s ∧
      (quoted s).letters = q :: (s ++ [q]) := by
    by_cases hdouble : '"' ∈ s
    · exact ⟨'\'', .inr rfl, h.resolve_left fun hnot => hnot hdouble, by simp [quoted, hdouble]⟩
    · exact ⟨'"', .inl rfl, hdouble, by simp [quoted, hdouble]⟩
  refine ⟨q, s ++ [q], hletters, ?_, ?_⟩
  · rcases hq with rfl | rfl <;> rfl
  · rw [List.append_assoc, hletters, List.length_cons, List.length_append]
    exact scan_quote hq hs rest

theorem scan_sign (h : w ∈ signs) (hapart : w.token.Apart rest) :
    ∃ c cs, w.letters = c :: cs ∧ isSpace c = false ∧
      Token.scan c (cs ++ rest) = (w.token, w.letters.length) := by
  have hnext : ∀ d : Char, headIsNot (· == d) rest = true → rest.head? ≠ some d := by
    intro d hhead heq
    rw [headIsNot, heq] at hhead
    simp at hhead
  simp only [signs, List.mem_cons, List.not_mem_nil, or_false] at h
  rcases h with rfl | rfl | rfl | rfl | rfl | rfl | rfl | rfl | rfl | rfl | rfl | rfl | rfl |
    rfl | rfl | rfl | rfl
  all_goals refine ⟨_, _, rfl, rfl, ?_⟩
  case inl => exact if_neg (hnext '/' hapart)
  all_goals first
    | rfl
    | exact if_neg (hnext '=' hapart)

/-- A word that does not run into what follows it is read as its token, and all its letters
are taken. -/
theorem Valid.scan (hw : w.Valid) (hapart : w.token.Apart rest) :
    ∃ c cs, w.letters = c :: cs ∧ isSpace c = false ∧
      Token.scan c (cs ++ rest) = (w.token, w.letters.length) := by
  cases hw with
  | sign h => exact scan_sign h hapart
  | quoted h => exact scan_quoted h rest
  | @name n h =>
    have hlength := Token.nameLength_word h hapart
    obtain ⟨c, cs, rfl, hc⟩ : ∃ c cs, n = c :: cs ∧ Token.startsName c = true := by
      rcases h with ⟨c, cs, rfl, hc, -⟩ | ⟨_, _, ⟨c, cs, rfl, hc, -⟩, -, rfl⟩
      · exact ⟨c, cs, rfl, hc⟩
      · exact ⟨c, _, rfl, hc⟩
    refine ⟨c, cs, rfl, Token.isSpace_of_startsName hc, ?_⟩
    rw [Token.scan_of_startsName hc, ← List.cons_append, hlength, List.take_left]
    rfl
  | @numeral whole fraction hwhole hfraction hdigits =>
    have hnumber := Token.scanNumber_numeral hwhole hfraction hapart
    cases whole with
    | cons c cs =>
      have hc := hwhole c List.mem_cons_self
      refine ⟨c, _, rfl, Token.isSpace_of_isDigit hc, ?_⟩
      rw [Token.scan_of_isDigit hc]
      exact congrArg (fun r : Nat × DecimalLiteral => (Token.number r.2, r.1)) hnumber
    | nil =>
      cases fraction with
      | none => exact absurd rfl (hdigits rfl)
      | some digits =>
        cases digits with
        | nil => exact absurd rfl (hdigits rfl)
        | cons d ds =>
          have hd : d.isDigit = true := hfraction d List.mem_cons_self
          have hpoint : d ≠ '.' := by
            rintro rfl
            exact absurd hd (by decide)
          refine ⟨'.', d :: ds, rfl, rfl, ?_⟩
          have hscan : Token.scan '.' (d :: ds ++ rest)
              = (.number (Token.scanNumber ('.' :: (d :: ds ++ rest))).2,
                (Token.scanNumber ('.' :: (d :: ds ++ rest))).1) := by
            simp [Token.scan, hpoint, hd]
          rw [hscan]
          exact congrArg (fun r : Nat × DecimalLiteral => (Token.number r.2, r.1)) hnumber

theorem Valid.token_ne_invalid (hw : w.Valid) : w.token ≠ .invalid := by
  cases hw with
  | sign h =>
    have hall : ∀ w ∈ signs, w.token ≠ .invalid := by decide
    exact hall w h
  | name | quoted | numeral => exact nofun

end Word

/-! ## Texts -/

/-- A text that is written in words, with white space before each of them and at the end;
no word runs into what follows it. -/
inductive Written : List Word → List Char → Prop where
  | nil {space : List Char} (hspace : ∀ c ∈ space, isSpace c = true) : Written [] space
  | cons {w : Word} {ws : List Word} {space rest : List Char}
      (hspace : ∀ c ∈ space, isSpace c = true) (hapart : w.token.Apart rest)
      (hrest : Written ws rest) : Written (w :: ws) (space ++ (w.letters ++ rest))

/-- Words with a blank after each. -/
def Word.joined (ws : List Word) : List Char := ws.flatMap fun w => w.letters ++ [' ']

theorem Written.blank {ws : List Word} {text : List Char} (h : Written ws text) :
    Written ws (' ' :: text) := by
  cases h with
  | nil hspace => exact .nil (List.forall_mem_cons.2 ⟨rfl, hspace⟩)
  | @cons w ws space rest hspace hapart hrest =>
    have hblank : ∀ c ∈ ' ' :: space, isSpace c = true := List.forall_mem_cons.2 ⟨rfl, hspace⟩
    exact .cons hblank hapart hrest

/-- Blanks keep all words apart. -/
theorem Word.written_joined (ws : List Word) : Written ws (joined ws) := by
  induction ws with
  | nil => exact .nil nofun
  | cons w ws ih =>
    have hcons : Written (w :: ws) ([] ++ (w.letters ++ ' ' :: joined ws)) :=
      .cons nofun (Token.apart_of_space rfl) ih.blank
    rw [joined, List.flatMap_cons, List.append_assoc]
    exact hcons

namespace Lexeme

open Grammar (current)

/-- With each token it is noted whether a parenthesis is opened next. -/
def Flagged : List Lexeme → Prop
  | [] => True
  | t :: ts => (t.beforeParen = true ↔ current ts = .leftParen) ∧ Flagged ts

variable {o : Nat} {space rest text : List Char} {c : Char} {cs : List Char}

theorem drop_takeWhile_append (hspace : ∀ c ∈ space, isSpace c = true)
    (hrest : headIsNot isSpace rest = true) :
    (space ++ rest).takeWhile isSpace = space ∧
      (space ++ rest).drop ((space ++ rest).takeWhile isSpace).length = rest := by
  have htake := takeWhile_append_of_head hspace hrest
  rw [htake, List.drop_left]
  exact ⟨rfl, rfl⟩

/-- At the end of the text there is nothing but white space. -/
theorem scanAll_space (o : Nat) (hspace : ∀ c ∈ space, isSpace c = true) :
    ∃ start, scanAll o space = [⟨.eof, start, false⟩] := by
  have hdrop : space.takeWhile isSpace = space ∧
      space.drop (space.takeWhile isSpace).length = [] := by
    have hnothing := drop_takeWhile_append hspace (rfl : headIsNot isSpace [] = true)
    rwa [List.append_nil] at hnothing
  unfold scanAll
  dsimp only
  split
  · exact ⟨_, rfl⟩
  · rename_i heq
    rw [hdrop.2] at heq
    cases heq

/-- The first token of a text, and the tokens of what follows it. -/
theorem scanAll_word (o : Nat) {token : Token} (hspace : ∀ c ∈ space, isSpace c = true)
    (hc : isSpace c = false) (hscan : Token.scan c (cs ++ rest) = (token, cs.length + 1))
    (htoken : token ≠ .invalid) :
    ∃ start o', scanAll o (space ++ c :: (cs ++ rest))
      = ⟨token, start, parenFirst rest⟩ :: scanAll o' rest := by
  have hhead : headIsNot isSpace (c :: (cs ++ rest)) = true := by simp [headIsNot, hc]
  have hdrop := drop_takeWhile_append hspace hhead
  rw [scanAll]
  dsimp only
  split
  · rename_i heq
    rw [hdrop.2] at heq
    cases heq
  · rename_i heq
    rw [hdrop.2] at heq
    cases heq
    simp only [hscan, if_neg htoken, Nat.add_sub_cancel, List.drop_left]
    exact ⟨_, _, rfl⟩

theorem headIsNot_dropWhile (p : Char → Bool) (text : List Char) :
    headIsNot p (text.dropWhile p) = true := by
  have hhead := List.head?_dropWhile_not p text
  unfold headIsNot
  cases hdrop : (text.dropWhile p).head? with
  | none => rfl
  | some c =>
    rw [hdrop] at hhead
    simpa using hhead

/-- A parenthesis is opened next exactly if that is the next token. -/
theorem parenFirst_iff (o : Nat) (text : List Char) :
    parenFirst text = true ↔ current (scanAll o text) = .leftParen := by
  obtain ⟨space, rest, hspace, hrest, rfl⟩ : ∃ space rest : List Char,
      (∀ c ∈ space, isSpace c = true) ∧ headIsNot isSpace rest = true ∧ text = space ++ rest :=
    ⟨text.takeWhile isSpace, text.dropWhile isSpace, fun c hc => List.mem_takeWhile_imp hc,
      headIsNot_dropWhile isSpace text, List.takeWhile_append_dropWhile.symm⟩
  have hdrop := drop_takeWhile_append hspace hrest
  have hfirst : dropSpace (space ++ rest) = rest := by
    rw [dropSpace, List.dropWhile_append_of_pos hspace]
    cases rest with
    | nil => rfl
    | cons c cs =>
      have hc : isSpace c = false := by simpa [headIsNot] using hrest
      rw [List.dropWhile_cons, hc]
      rfl
  rw [parenFirst, hfirst, scanAll]
  dsimp only
  split
  · rename_i heq
    rw [hdrop.2] at heq
    subst heq
    simp [current]
  · rename_i c cs heq
    rw [hdrop.2] at heq
    subst heq
    have hscan : (Token.scan c cs).1 = .leftParen ↔ c = '(' := Token.scan_eq_leftParen_iff
    split
    · rename_i hinvalid
      rw [hinvalid] at hscan
      simpa [current] using hscan
    · simpa [current] using hscan.symm

end Lexeme

/-- A text that is written in words is cut into their tokens. -/
theorem Written.scanAll {ws : List Word} {text : List Char} (h : Written ws text)
    (hws : ∀ w ∈ ws, w.Valid) (o : Nat) :
    (Lexeme.scanAll o text).map (·.token) = ws.map (·.token) ++ [.eof] ∧
      Lexeme.Flagged (Lexeme.scanAll o text) := by
  induction h generalizing o with
  | nil hspace =>
    obtain ⟨start, hscan⟩ := Lexeme.scanAll_space o hspace
    rw [hscan]
    exact ⟨rfl, by simp [Lexeme.Flagged, Grammar.current]⟩
  | @cons w ws space rest hspace hapart hrest ih =>
    obtain ⟨c, cs, hletters, hc, hscan⟩ := (hws w List.mem_cons_self).scan hapart
    rw [hletters, List.length_cons] at hscan
    obtain ⟨start, o', hall⟩ := Lexeme.scanAll_word o hspace hc hscan
      (hws w List.mem_cons_self).token_ne_invalid
    rw [hletters, List.cons_append, hall]
    obtain ⟨htokens, hflagged⟩ := ih (fun w' hw' => hws w' (List.mem_cons_of_mem w hw')) o'
    refine ⟨?_, ?_, hflagged⟩
    · rw [List.map_cons, htokens]
      rfl
    · exact Lexeme.parenFirst_iff o' rest

end XmlTree
