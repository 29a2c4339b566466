/-
  Proofs/ByteTokens.lean --- tokens that are read from bytes.

  WHAT THIS FILE IS FOR.  An expression is cut into tokens by looking at one byte after the
  other.  Names, numbers and strings are sliced out between two places that the scanner came
  to, and such a slice exists only if neither place is inside a character.  Here the tokens are
  read byte by byte, with every slice checked, and they are the tokens of the text: no slice is
  ever taken outside of the text or inside a character.

  INSIDE A CHARACTER is where the scanner is for a moment, behind the first byte of a name
  after a colon.  The other bytes of the character go on with the name, too.
-/
import XmlTree.Proofs.Bytes
import XmlTree.Query.Token

set_option autoImplicit false

namespace XmlTree

/-! ## Classes of bytes -/

namespace Token

/-- Whether a name without a colon begins with a byte. -/
def startsNameByte (b : UInt8) : Bool := isLetterByte b || b == '_'.toUInt8 || 0x80 ≤ b

/-- Whether a byte is an ASCII digit. -/
def isDigitByte (b : UInt8) : Bool := '0'.toUInt8 ≤ b && b ≤ '9'.toUInt8

/-- Whether a name without a colon goes on with a byte. -/
def continuesNameByte (b : UInt8) : Bool :=
  startsNameByte b || isDigitByte b || b == '-'.toUInt8 || b == '.'.toUInt8

theorem byteClass_startsName : ByteClass startsNameByte startsName := by
  refine byteClass_of_table true (by decide) ?_ ?_
  · intro b hb
    have h80 : (0x80 : UInt8) ≤ b := UInt8.le_iff_toNat_le.2 hb
    simp [startsNameByte, h80]
  · intro c hc
    have h128 : 128 ≤ c.toNat := Nat.le_of_not_lt hc
    simp [startsName, h128]

theorem byteClass_continuesName : ByteClass continuesNameByte continuesName := by
  refine byteClass_of_table true (by decide) ?_ ?_
  · intro b hb
    have h80 : (0x80 : UInt8) ≤ b := UInt8.le_iff_toNat_le.2 hb
    simp [continuesNameByte, startsNameByte, h80]
  · intro c hc
    have h128 : 128 ≤ c.toNat := Nat.le_of_not_lt hc
    simp [continuesName, startsName, h128]

theorem byteClass_digit : ByteClass isDigitByte Char.isDigit := by
  refine byteClass_of_table false (by decide) ?_ ?_
  · intro b hb
    have h9 : ¬ b ≤ '9'.toUInt8 := fun h =>
      absurd (Nat.le_trans hb (UInt8.le_iff_toNat_le.1 h)) (by decide)
    simp [isDigitByte, h9]
  · intro c hc
    have h9 : ¬ c ≤ '9' := fun h =>
      hc (Nat.lt_of_le_of_lt (show c.toNat ≤ '9'.toNat from h) (by decide))
    have h9' : ¬ c.val ≤ 57 := h9
    simp [Char.isDigit, h9']

/-- The marks that a token may begin with, or be. -/
def marks : List Char :=
  ['>', '<', '!', '=', '+', '-', '*', '|', '(', ')', '[', ']', ',', '@', '/', ':', '$', '.']

/-- What begins with no mark is a string, a number or a name. -/
theorem scan_of_not_mem {c : Char} {cs : List Char} (hc : c ∉ marks) :
    scan c cs =
      if c = '"' ∨ c = '\'' then
        match cutAt? [c] cs with
        | some (value, _) => (.string value, value.length + 2)
        | none => (.invalid, 0)
      else if c.isDigit then (.number (scanNumber (c :: cs)).2, (scanNumber (c :: cs)).1)
      else if startsName c then
        (.name ((c :: cs).take (nameLength (c :: cs))), nameLength (c :: cs))
      else (.invalid, 1) := by
  unfold scan
  simp only
  split
  case h_19 =>
    exact if_congr (by rw [Bool.or_eq_true, decide_eq_true_eq, decide_eq_true_eq]) rfl rfl
  all_goals exact absurd (by decide) hc

theorem scanNumber_pos {c : Char} {cs : List Char}
    (h : c.isDigit = true ∨ c = '.' ∧ cs.head?.any Char.isDigit = true) :
    0 < (scanNumber (c :: cs)).1 := by
  unfold scanNumber
  rcases h with hc | ⟨rfl, -⟩
  · simp only [List.takeWhile_cons_of_pos hc, List.length_cons]
    split
    · simp only
      omega
    · exact Nat.succ_pos _
  · simp only [List.takeWhile_cons_of_neg (show ¬ Char.isDigit '.' = true by decide),
      List.length_nil, List.drop_zero]
    omega

theorem nameLength_pos {c : Char} {cs : List Char} (hc : startsName c = true) :
    0 < nameLength (c :: cs) := by
  have hcontinues : continuesName c = true := by simp [continuesName, hc]
  unfold nameLength
  simp only [List.takeWhile_cons_of_pos hcontinues, List.length_cons]
  split
  · omega
  · split <;> omega
  · omega

/-- Every token but an invalid one has characters of its own. -/
theorem scan_progress (c : Char) (cs : List Char) :
    (scan c cs).1 ≠ .eof ∧ ((scan c cs).1 ≠ .invalid → 0 < (scan c cs).2) := by
  by_cases hmem : c ∈ marks
  · unfold scan
    simp only
    split
    case h_18 =>
      split
      · exact ⟨by simp, fun _ => Nat.succ_pos 1⟩
      · split
        · exact ⟨by simp, fun _ => scanNumber_pos (.inr ⟨rfl, ‹_›⟩)⟩
        · exact ⟨by simp, fun _ => Nat.succ_pos 0⟩
    case h_19 => simp_all [marks]
    all_goals first
      | exact ⟨by simp, fun _ => Nat.succ_pos 0⟩
      | split <;> exact ⟨by simp, fun _ => Nat.succ_pos _⟩
  · rw [scan_of_not_mem hmem]
    split
    · split
      · exact ⟨by simp, fun _ => Nat.succ_pos _⟩
      · exact ⟨by simp, fun h => absurd rfl h⟩
    · split
      · exact ⟨by simp, fun _ => scanNumber_pos (.inl ‹_›)⟩
      · split
        · exact ⟨by simp, fun _ => nameLength_pos ‹_›⟩
        · exact ⟨by simp, fun h => absurd rfl h⟩

/-- A name goes on after a colon if a star or the start of a name follows. -/
theorem nameLength_cases (cs : List Char) {n : Nat} (hn : n = (cs.takeWhile continuesName).length) :
    (∃ rest, cs.drop n = ':' :: '*' :: rest ∧ nameLength cs = n + 2) ∨
      (∃ c rest, cs.drop n = ':' :: c :: rest ∧ c ≠ '*' ∧ startsName c = true ∧
        nameLength cs = n + (rest.takeWhile continuesName).length.succ.succ) ∨
      (∀ c rest, cs.drop n = ':' :: c :: rest → c ≠ '*' ∧ startsName c = false) ∧
        nameLength cs = n := by
  unfold nameLength
  rw [← hn]
  simp only
  split
  · rename_i rest hrest
    exact .inl ⟨rest, hrest, rfl⟩
  · rename_i c rest hstar hrest
    split
    · rename_i hc
      exact .inr (.inl ⟨c, rest, hrest, fun h => hstar (h ▸ rfl), hc, by omega⟩)
    · rename_i hc
      refine .inr (.inr ⟨fun c' rest' hrest' => ?_, rfl⟩)
      rw [hrest, List.cons.injEq, List.cons.injEq] at hrest'
      obtain ⟨-, rfl, -⟩ := hrest'
      exact ⟨fun h => hstar (h ▸ rfl), Bool.eq_false_iff.2 hc⟩
  · rename_i hstar hother
    exact .inr (.inr ⟨fun c rest hrest => (hother c rest hrest).elim, rfl⟩)

/-- A number is read off its own characters. -/
theorem scanNumber_take (cs : List Char) :
    (scanNumber (cs.take (scanNumber cs).1)).2 = (scanNumber cs).2 := by
  conv_rhs => rw [scanNumber]
  rw [show (scanNumber cs).1 = _ from by rw [scanNumber]]
  simp only
  split
  · rename_i rest hrest
    have hcut : cs.take
        ((cs.takeWhile Char.isDigit).length + 1 + (rest.takeWhile Char.isDigit).length) =
        cs.takeWhile Char.isDigit ++ '.' :: rest.takeWhile Char.isDigit := by
      rw [Nat.add_assoc, List.take_add, take_length_takeWhile, hrest, Nat.add_comm 1,
        List.take_succ_cons, take_length_takeWhile]
    have hwhole : (cs.takeWhile Char.isDigit ++ '.' :: rest.takeWhile Char.isDigit).takeWhile
        Char.isDigit = cs.takeWhile Char.isDigit := by
      rw [List.takeWhile_append_of_pos (fun c hc => List.mem_takeWhile_imp hc),
        List.takeWhile_cons_of_neg (by decide), List.append_nil]
    rw [hcut, scanNumber, hwhole, List.drop_left]
    simp only [List.takeWhile_idem]
  · rw [take_length_takeWhile, scanNumber, List.takeWhile_idem, List.drop_length]

end Token

/-! ## The tokens of a text, one by one -/

namespace Lexeme

variable {o : Nat} {text : List Char}

theorem scanAll_of_end (h : text.drop (text.takeWhile isSpace).length = []) :
    scanAll o text = [⟨.eof, o + byteSize (text.takeWhile isSpace), false⟩] := by
  rw [scanAll]
  dsimp only
  split
  · rfl
  · rename_i hdrop
    rw [h] at hdrop
    cases hdrop

theorem scanAll_of_invalid {c : Char} {cs : List Char}
    (h : text.drop (text.takeWhile isSpace).length = c :: cs)
    (hinvalid : (Token.scan c cs).1 = .invalid) :
    scanAll o text = [⟨.invalid, o + byteSize (text.takeWhile isSpace),
      parenFirst ((c :: cs).drop (Token.scan c cs).2)⟩] := by
  rw [scanAll]
  dsimp only
  split
  · rename_i hdrop
    rw [h] at hdrop
    cases hdrop
  · rename_i hdrop
    rw [h] at hdrop
    cases hdrop
    rw [if_pos hinvalid]

theorem scanAll_of_token {c : Char} {cs : List Char}
    (h : text.drop (text.takeWhile isSpace).length = c :: cs)
    (htoken : (Token.scan c cs).1 ≠ .invalid) :
    scanAll o text =
      ⟨(Token.scan c cs).1, o + byteSize (text.takeWhile isSpace),
        parenFirst ((c :: cs).drop (Token.scan c cs).2)⟩ ::
      scanAll (o + byteSize (text.takeWhile isSpace)
        + byteSize ((c :: cs).take (Token.scan c cs).2)) ((c :: cs).drop (Token.scan c cs).2) := by
  have hpos := (Token.scan_progress c cs).2 htoken
  have htaken : cs.drop ((Token.scan c cs).2 - 1) = (c :: cs).drop (Token.scan c cs).2 := by
    obtain ⟨n, hn⟩ := Nat.exists_eq_add_of_lt hpos
    rw [hn, Nat.zero_add, List.drop_succ_cons, Nat.add_sub_cancel]
  rw [scanAll]
  dsimp only
  split
  · rename_i hdrop
    rw [h] at hdrop
    cases hdrop
  · rename_i hdrop
    rw [h] at hdrop
    cases hdrop
    rw [if_neg htoken, htaken]

end Lexeme

/-! ## Reading one token -/

namespace Scanner

/-- Steps over bytes of a class. -/
def skipWhile (s : Scanner) (p : UInt8 → Bool) : Scanner := s.advance (s.rest.takeWhile p).length

/-- Behind digits, a point and digits. -/
def skipNumber (s : Scanner) : Scanner :=
  let whole := s.skipWhile Token.isDigitByte
  if whole.peek? = some '.'.toUInt8 then (whole.advance 1).skipWhile Token.isDigitByte else whole

/-- Behind a name, and behind a colon with another name or `*` after it. -/
def skipName (s : Scanner) : Scanner :=
  let first := s.skipWhile Token.continuesNameByte
  if first.peek? = some ':'.toUInt8 then
    match (first.advance 1).peek? with
    | some b =>
      if b = '*'.toUInt8 then first.advance 2
      else if Token.startsNameByte b then (first.advance 2).skipWhile Token.continuesNameByte
      else first
    | none => first
  else first

/-- Reads a number. -/
def scanNumber? (s : Scanner) : Option (Token × Scanner) :=
  (s.sliceTo? s.skipNumber.position).map fun text =>
    (.number (Token.scanNumber text).2, s.skipNumber)

/-- Reads a name, and makes a token of it. -/
def scanName? (s : Scanner) (token : List Char → Token) : Option (Token × Scanner) :=
  (s.sliceTo? s.skipName.position).map fun text => (token text, s.skipName)

/-- Reads a string from its quote on. -/
def scanString? (s : Scanner) (quote : UInt8) : Option (Token × Scanner) :=
  match (s.advance 1).findByte? quote with
  | some stop => ((s.advance 1).sliceTo? stop).map fun text => (.string text, s.moveTo (stop + 1))
  | none => some (.invalid, s)

/-- Reads the token at a byte that is not white; none if a slice cuts a character. -/
def scanToken? (s : Scanner) (b : UInt8) : Option (Token × Scanner) :=
  let next := (s.advance 1).peek?
  let sign (token : Token) (size : Nat) := some (token, s.advance size)
  match Char.ofUInt8 b with
  | '>' => if next = some '='.toUInt8 then sign .gtEq 2 else sign .gt 1
  | '<' => if next = some '='.toUInt8 then sign .ltEq 2 else sign .lt 1
  | '!' => if next = some '='.toUInt8 then sign .notEq 2 else sign .invalid 1
  | '=' => sign .eq 1
  | '+' => sign .plus 1
  | '-' => sign .minus 1
  | '*' => sign .star 1
  | '|' => sign .pipe 1
  | '(' => sign .leftParen 1
  | ')' => sign .rightParen 1
  | '[' => sign .leftBracket 1
  | ']' => sign .rightBracket 1
  | ',' => sign .comma 1
  | '@' => sign .atSign 1
  | '/' => if next = some '/'.toUInt8 then sign .doubleSlash 2 else sign .slash 1
  | ':' => if next = some ':'.toUInt8 then sign .doubleColon 2 else sign .invalid 1
  | '$' =>
    if next.any Token.startsNameByte then (s.advance 1).scanName? .variableName
    else sign .invalid 1
  | '.' =>
    if next = some '.'.toUInt8 then sign .doubleDot 2
    else if next.any Token.isDigitByte then s.scanNumber?
    else sign .dot 1
  | _ =>
    if b = '"'.toUInt8 ∨ b = '\''.toUInt8 then s.scanString? b
    else if Token.isDigitByte b then s.scanNumber?
    else if Token.startsNameByte b then s.scanName? .name
    else sign .invalid 1

/-- Reads the next token and looks for a parenthesis behind it. -/
def nextLexeme? (s : Scanner) : Option (Lexeme × Scanner) :=
  let here := s.skipSpace
  match here.peek? with
  | none => some (⟨.eof, here.position, false⟩, here)
  | some b =>
    (here.scanToken? b).map fun (token, next) =>
      (⟨token, here.position, next.skipSpace.peek? = some '('.toUInt8⟩, next)

/-- Reads tokens up to the end of the text or to the first place where no token begins; none if
a slice cuts a character or after too many tokens. -/
def lexemes? : Nat → Scanner → Option (List Lexeme)
  | 0, _ => none
  | fuel + 1, s =>
    match s.nextLexeme? with
    | none => none
    | some (t, next) =>
      if t.token = .eof ∨ t.token = .invalid then some [t] else (next.lexemes? fuel).map (t :: ·)

/-! ## The token that is read -/

variable {s : Scanner} {before cs : List Char}

theorem Stands.skipWhile {p : UInt8 → Bool} {q : Char → Bool} (hpq : ByteClass p q)
    (h : s.Stands before cs) :
    (s.skipWhile p).Stands (before ++ cs.take (cs.takeWhile q).length)
      (cs.drop (cs.takeWhile q).length) :=
  h.advance_takeWhile hpq

theorem Stands.sliceTo_take (h : s.Stands before cs) {next : Scanner} {n : Nat}
    (hnext : next.Stands (before ++ cs.take n) (cs.drop n)) :
    s.sliceTo? next.position = some (cs.take n) := by
  have hstop : next.position = s.position + byteSize (cs.take n) := by
    rw [hnext.position, byteSize_append, h.position]
  have hsplit : s.Stands before (cs.take n ++ cs.drop n) := by rwa [List.take_append_drop]
  exact hsplit.sliceTo? hstop

/-- Behind more characters. -/
theorem Stands.more {n k : Nat} (h : s.Stands (before ++ cs.take n ++ (cs.drop n).take k)
    ((cs.drop n).drop k)) : s.Stands (before ++ cs.take (n + k)) (cs.drop (n + k)) := by
  rwa [List.append_assoc, ← List.take_add, List.drop_drop] at h

theorem Stands.skipName (h : s.Stands before cs) :
    s.skipName.Stands (before ++ cs.take (Token.nameLength cs))
      (cs.drop (Token.nameLength cs)) := by
  have hfirst := h.skipWhile Token.byteClass_continuesName
  have hcases := Token.nameLength_cases cs rfl
  have hcolon : IsAscii ':' := by decide
  unfold Scanner.skipName
  simp only
  generalize (cs.takeWhile Token.continuesName).length = n at hfirst hcases
  generalize s.skipWhile Token.continuesNameByte = first at hfirst
  have hpeek := hfirst.peek?_eq_some_iff hcolon
  rcases hcases with ⟨rest, hrest, hn⟩ | ⟨c, rest, hrest, hstar, hc, hn⟩ | ⟨hother, hn⟩
  · -- a star after the colon
    rw [hrest] at hfirst hpeek
    have hone := hfirst.advance_one hcolon
    simp only [hpeek.2 rfl, if_true, (hone.peek?_eq_some_iff (m := '*') (by decide)).2 rfl]
    rw [hn]
    refine .more ?_
    rw [hrest]
    exact (show first.Stands (before ++ cs.take n) ([':', '*'] ++ rest) from hfirst).advance_ascii
      (isAscii_of_all rfl)
  · -- a name after the colon; two bytes on, the scanner may be inside its first character
    rw [hrest] at hfirst hpeek
    have hone := hfirst.advance_one hcolon
    obtain ⟨b, hb, hclass, hmark⟩ := hone.peek?_cons
    have hne : b ≠ '*'.toUInt8 := mt (hmark (by decide)).1 hstar
    simp only [hpeek.2 rfl, if_true, hb, if_neg hne,
      (hclass Token.byteClass_startsName).trans hc]
    rw [hn]
    refine .more ?_
    rw [hrest]
    have hsplit : first.Stands (before ++ cs.take n)
        ((':' :: c :: rest.take (rest.takeWhile Token.continuesName).length)
          ++ rest.drop (rest.takeWhile Token.continuesName).length) := by
      rwa [List.cons_append, List.cons_append, List.take_append_drop]
    refine hsplit.moveTo (n := first.position + 2 + _) ?_
    have htail : (first.advance 2).rest = (utf8 (c :: rest)).tail := by
      rw [rest_advance, hfirst.rest, utf8_cons, utf8EncodeChar_of_isAscii hcolon]
      exact List.drop_one
    have hlength := Token.byteClass_continuesName.length_takeWhile_tail c rest
      fun hbeyond => by
        have h128 : 128 ≤ c.toNat := Nat.le_of_not_lt hbeyond
        simp [Token.continuesName, Token.startsName, h128]
    rw [htail, take_length_takeWhile, byteSize_cons ':', utf8Size_of_isAscii hcolon]
    omega
  · -- no colon that the name goes on after
    rw [hn]
    split
    · rename_i hcolonNext
      obtain ⟨rest, hrest⟩ := List.head?_eq_some_iff.1 (hpeek.1 hcolonNext)
      · rw [hrest] at hfirst
        have hone := hfirst.advance_one hcolon
        rw [← hrest] at hfirst
        cases rest with
        | nil =>
          rw [hone.peek?_nil]
          exact hfirst
        | cons d rest =>
          obtain ⟨hstar, hd⟩ := hother d rest hrest
          obtain ⟨b, hb, hclass, hmark⟩ := hone.peek?_cons
          have hne : b ≠ '*'.toUInt8 := mt (hmark (by decide)).1 hstar
          simp only [hb, if_neg hne, (hclass Token.byteClass_startsName).trans hd,
            Bool.false_eq_true, if_false]
          exact hfirst
    · exact hfirst

theorem Stands.skipNumber (h : s.Stands before cs) :
    s.skipNumber.Stands (before ++ cs.take (Token.scanNumber cs).1)
      (cs.drop (Token.scanNumber cs).1) := by
  have hwhole := h.skipWhile Token.byteClass_digit
  have hpoint : IsAscii '.' := by decide
  unfold Scanner.skipNumber Token.scanNumber
  simp only
  generalize s.skipWhile Token.isDigitByte = whole at hwhole
  have hpeek := hwhole.peek?_eq_some_iff hpoint
  by_cases hdot : whole.peek? = some '.'.toUInt8
  · obtain ⟨rest, hrest⟩ := List.head?_eq_some_iff.1 (hpeek.1 hdot)
    rw [if_pos hdot, hrest]
    simp only [Nat.add_assoc, Nat.add_comm 1]
    refine .more ?_
    rw [hrest] at hwhole ⊢
    have hfraction := (hwhole.advance_one hpoint).skipWhile Token.byteClass_digit
    rw [List.append_assoc] at hfraction
    exact hfraction
  · rw [if_neg hdot]
    split
    · rename_i rest hrest
      rw [hrest] at hpeek
      exact absurd (hpeek.2 rfl) hdot
    · exact hwhole

/-- What a token is read as, and where the scanner stands behind it. -/
def Scans (before cs : List Char) (read : Option (Token × Scanner)) (token : Token × Nat) : Prop :=
  ∃ next, read = some (token.1, next) ∧
    next.Stands (before ++ cs.take token.2) (cs.drop token.2)

theorem Stands.scans_one {c : Char} {token : Token} (h : s.Stands before (c :: cs))
    (hc : IsAscii c) : Scans before (c :: cs) (some (token, s.advance 1)) (token, 1) :=
  ⟨s.advance 1, rfl, h.advance_one hc⟩

theorem Stands.scans_two {c d : Char} {token : Token} (h : s.Stands before (c :: cs))
    (hc : IsAscii c) (hd : IsAscii d) (hnext : cs.head? = some d) :
    Scans before (c :: cs) (some (token, s.advance 2)) (token, 2) := by
  obtain ⟨rest, rfl⟩ := List.head?_eq_some_iff.1 hnext
  refine ⟨s.advance 2, rfl,
    (show s.Stands before ([c, d] ++ rest) from h).advance_ascii ?_⟩
  exact List.forall_mem_cons.2 ⟨hc, List.forall_mem_singleton.2 hd⟩

theorem Stands.scans_number (h : s.Stands before cs) :
    Scans before cs s.scanNumber? (.number (Token.scanNumber cs).2, (Token.scanNumber cs).1) := by
  refine ⟨s.skipNumber, ?_, h.skipNumber⟩
  rw [scanNumber?, h.sliceTo_take h.skipNumber, Option.map_some, Token.scanNumber_take]

theorem Stands.scans_name (h : s.Stands before cs) :
    Scans before cs (s.scanName? .name)
      (.name (cs.take (Token.nameLength cs)), Token.nameLength cs) := by
  refine ⟨s.skipName, ?_, h.skipName⟩
  rw [scanName?, h.sliceTo_take h.skipName, Option.map_some]

theorem Stands.scans_variable (h : s.Stands before ('$' :: cs)) :
    Scans before ('$' :: cs) ((s.advance 1).scanName? .variableName)
      (.variableName (cs.take (Token.nameLength cs)), Token.nameLength cs + 1) := by
  have hone := h.advance_one (by decide)
  refine ⟨(s.advance 1).skipName, ?_, ?_⟩
  · rw [scanName?, hone.sliceTo_take hone.skipName, Option.map_some]
  · have hname := hone.skipName
    rwa [List.append_assoc] at hname

theorem Stands.scans_string {quote : Char} (hquote : IsAscii quote)
    (h : s.Stands before (quote :: cs)) :
    Scans before (quote :: cs) (s.scanString? quote.toUInt8)
      (match cutAt? [quote] cs with
        | some (value, _) => (.string value, value.length + 2)
        | none => (.invalid, 0)) := by
  have hone := h.advance_one hquote
  have hfind := hone.findByte? hquote
  unfold scanString?
  cases hcut : cutAt? [quote] cs with
  | none =>
    rw [hcut] at hfind
    rw [hfind]
    exact ⟨s, rfl, by rwa [List.take_zero, List.append_nil, List.drop_zero]⟩
  | some found =>
    obtain ⟨value, rest⟩ := found
    have hcs := eq_append_of_cutAt? hcut
    rw [hcut] at hfind
    rw [hfind]
    subst hcs
    rw [List.append_assoc] at hone
    have hslice : (s.advance 1).sliceTo? ((s.advance 1).position + byteSize value) = some value :=
      hone.sliceTo? rfl
    refine ⟨s.moveTo ((s.advance 1).position + byteSize value + 1), ?_, ?_⟩
    · simp only [Option.map_some, hslice]
    · have hlength : (quote :: (value ++ [quote])).length = value.length + 2 := by simp
      have hsplit : s.Stands before (quote :: (value ++ [quote]) ++ rest) := h
      have hmove := hsplit.moveTo (n := (s.advance 1).position + byteSize value + 1) (by
        rw [byteSize_cons, byteSize_append, byteSize_cons, byteSize_nil, utf8Size_of_isAscii hquote]
        show s.position + 1 + _ + 1 = _
        omega)
      simp only [← hlength]
      change (s.moveTo _).Stands (before ++ (quote :: (value ++ [quote]) ++ rest).take _)
        ((quote :: (value ++ [quote]) ++ rest).drop _)
      rwa [List.take_left, List.drop_left]

theorem toUInt8_ofUInt8 (b : UInt8) : (Char.ofUInt8 b).toUInt8 = b := by
  rw [← UInt8.toNat_inj]
  exact Nat.mod_eq_of_lt b.toNat_lt

/-- A byte that no mark begins with. -/
theorem scanToken?_of_not_mem {b : UInt8} (hb : Char.ofUInt8 b ∉ Token.marks) :
    s.scanToken? b =
      if b = '"'.toUInt8 ∨ b = '\''.toUInt8 then s.scanString? b
      else if Token.isDigitByte b then s.scanNumber?
      else if Token.startsNameByte b then s.scanName? .name
      else some (.invalid, s.advance 1) := by
  unfold scanToken?
  simp only
  split
  case h_19 => rfl
  all_goals
    rename_i hmark
    exact absurd (by rw [hmark]; decide) hb

/-- Bytes are read as the token that their characters begin with. -/
theorem Stands.scans_token {c : Char} {b : UInt8} (h : s.Stands before (c :: cs))
    (hb : s.peek? = some b) : Scans before (c :: cs) (s.scanToken? b) (Token.scan c cs) := by
  obtain ⟨b', hb', hclass, hmark⟩ := h.peek?_cons
  obtain rfl : b' = b := Option.some.inj (hb'.symm.trans hb)
  have hascii : ∀ m ∈ Token.marks, IsAscii m := isAscii_of_all rfl
  by_cases hmem : c ∈ Token.marks
  · have hc := hascii c hmem
    have hone := h.advance_one hc
    have hnext : ∀ {m : Char}, IsAscii m → ((s.advance 1).peek? = some m.toUInt8 ↔
      cs.head? = some m) := fun hm => hone.peek?_eq_some_iff hm
    have hany := hone.any_peek? Token.byteClass_startsName
    have hanyDigit := hone.any_peek? Token.byteClass_digit
    have hbyte : Char.ofUInt8 b' = c := by
      rw [(hmark hc).2 rfl, ← Char.toNat_inj, ← toNat_toUInt8 hc]
      rfl
    unfold scanToken? Token.scan
    simp only [hany, hanyDigit, hbyte]
    simp (disch := decide) only [hnext]
    split
    case h_17 =>
      split
      · exact h.scans_variable
      · exact h.scans_one hc
    case h_18 =>
      split
      · exact h.scans_two hc hc ‹_›
      · split
        · exact h.scans_number
        · exact h.scans_one hc
    case h_19 => simp_all [Token.marks]
    -- a mark of one character, or of two
    all_goals first
      | exact h.scans_one hc
      | split
        · rename_i hsecond
          exact h.scans_two hc (hascii _ (by decide)) hsecond
        · exact h.scans_one hc
  · have hbyte : Char.ofUInt8 b' ∉ Token.marks := by
      intro hm
      have hcm := (hmark (hascii _ hm)).1 (toUInt8_ofUInt8 b').symm
      exact hmem (hcm ▸ hm)
    rw [scanToken?_of_not_mem hbyte, Token.scan_of_not_mem hmem]
    simp only [hclass Token.byteClass_digit, hclass Token.byteClass_startsName,
      hmark (show IsAscii '"' by decide), hmark (show IsAscii '\'' by decide)]
    split
    · rename_i hquote
      have hc : IsAscii c := by
        rcases hquote with rfl | rfl <;> decide
      rw [(hmark hc).2 rfl]
      exact h.scans_string hc
    · split
      · exact h.scans_number
      · split
        · exact h.scans_name
        · rename_i hname
          refine h.scans_one (Decidable.by_contra fun hc => hname ?_)
          have h128 : 128 ≤ c.toNat := Nat.le_of_not_lt hc
          simp [Token.startsName, h128]

theorem Stands.parenFirst (h : s.Stands before cs) :
    decide (s.skipSpace.peek? = some '('.toUInt8) = Lexeme.parenFirst cs := by
  have hpeek := h.skipSpace.peek?_eq_some_iff (m := '(') (by decide)
  rw [drop_length_takeWhile] at hpeek
  exact decide_eq_decide.2 hpeek

/-- The next token of the text is read; behind it the scanner stands between characters. -/
theorem Stands.exists_nextLexeme (h : s.Stands before cs) :
    ∃ t next, s.nextLexeme? = some (t, next) ∧
      (((t.token = .eof ∨ t.token = .invalid) ∧ Lexeme.scanAll s.position cs = [t]) ∨
        ¬ (t.token = .eof ∨ t.token = .invalid) ∧ ∃ before' rest, next.Stands before' rest ∧
          rest.length < cs.length ∧
          Lexeme.scanAll s.position cs = t :: Lexeme.scanAll next.position rest) := by
  have hhere := h.skipSpace
  have hposition : s.skipSpace.position = s.position + byteSize (cs.takeWhile isSpace) := by
    rw [hhere.position, byteSize_append, h.position, take_length_takeWhile]
  rw [nextLexeme?]
  cases hdrop : cs.drop (cs.takeWhile isSpace).length with
  | nil =>
    rw [hdrop] at hhere
    rw [hhere.peek?_nil]
    refine ⟨_, _, rfl, .inl ⟨.inl rfl, ?_⟩⟩
    rw [Lexeme.scanAll_of_end hdrop, hposition]
  | cons c rest =>
    have hlength := congrArg List.length hdrop
    rw [List.length_drop, List.length_cons] at hlength
    rw [hdrop] at hhere
    obtain ⟨b, hb, -⟩ := hhere.peek?_cons
    obtain ⟨next, hscan, hnext⟩ := hhere.scans_token hb
    obtain ⟨heof, hpos⟩ := Token.scan_progress c rest
    simp only [hb, hscan, Option.map_some, hnext.parenFirst]
    refine ⟨_, next, rfl, ?_⟩
    by_cases hinvalid : (Token.scan c rest).1 = .invalid
    · refine .inl ⟨.inr hinvalid, ?_⟩
      rw [Lexeme.scanAll_of_invalid hdrop hinvalid, hposition, hinvalid]
    · refine .inr ⟨not_or_intro heof hinvalid, _, _, hnext, ?_, ?_⟩
      · have := hpos hinvalid
        rw [List.length_drop, List.length_cons]
        omega
      · rw [Lexeme.scanAll_of_token hdrop hinvalid, hnext.position, byteSize_append,
          ← hhere.position, hposition]

theorem Stands.lexemes? (h : s.Stands before cs) {fuel : Nat} (hfuel : cs.length < fuel) :
    s.lexemes? fuel = some (Lexeme.scanAll s.position cs) := by
  induction fuel generalizing s before cs with
  | zero => exact absurd hfuel (Nat.not_lt_zero _)
  | succ fuel ih =>
    obtain ⟨t, next, hread, ⟨hend, hall⟩ | ⟨hmore, before', rest, hnext, hlength, hall⟩⟩ :=
      h.exists_nextLexeme
    · simp only [Scanner.lexemes?, hread, if_pos hend, hall]
    · simp only [Scanner.lexemes?, hread, if_neg hmore, hall, ih hnext (by omega), Option.map_some]

/-- The tokens of a text are read off its bytes, and no slice cuts a character. -/
theorem lexemes?_ofText (text : String) :
    (Scanner.ofText text).lexemes? (text.utf8ByteSize + 1) = some (Lexeme.ofText text) := by
  refine (Stands.ofText text).lexemes? (Nat.lt_succ_of_le ?_)
  rw [← byteSize_toList]
  exact length_le_byteSize _

end Scanner

end XmlTree
