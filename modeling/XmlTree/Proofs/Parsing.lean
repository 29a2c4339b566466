/-
  Proofs/Parsing.lean --- the tree of a text is the one it was written from.

  WHAT THIS FILE IS FOR.  A phrase that is written down with no more parentheses than its
  operators need is read as its own tree, whatever else follows it, up to the greatest number
  of levels.  Each kind of phrase is read by readers of its own, from what its parts are read
  as; the tokens after it matter only by what cannot belong to it.

  A MINUS BEFORE A UNION.  The operand of a minus ends before any operator, also before a
  union.  So a union that is negated stands in parentheses, and without them the minus takes
  its first operand alone, which leaves no node-set to unite.
-/
import XmlTree.Proofs.Spelling
import XmlTree.Proofs.Readers

set_option autoImplicit false

namespace XmlTree

/-! ## Words at the start of tokens -/

namespace Grammar

/-- Tokens that begin with those of some words. -/
def Begins (ts : List Lexeme) (ws : List Word) (rest : List Lexeme) : Prop :=
  ∃ us, ts = us ++ rest ∧ us.map (·.token) = ws.map (·.token)

namespace Begins

variable {ts rest : List Lexeme} {w : Word} {ws ws' : List Word}

theorem eq_of_nil (h : Begins ts [] rest) : ts = rest := by
  obtain ⟨us, rfl, hus⟩ := h
  rw [List.map_nil, List.map_eq_nil_iff] at hus
  rw [hus, List.nil_append]

theorem exists_cons (h : Begins ts (w :: ws) rest) :
    ∃ t more, ts = t :: more ∧ t.token = w.token ∧ Begins more ws rest := by
  obtain ⟨us, rfl, hus⟩ := h
  rw [List.map_cons, List.map_eq_cons_iff] at hus
  obtain ⟨t, vs, rfl, ht, hvs⟩ := hus
  exact ⟨t, vs ++ rest, rfl, ht, vs, rfl, hvs⟩

theorem exists_append (h : Begins ts (ws ++ ws') rest) :
    ∃ mid, Begins ts ws mid ∧ Begins mid ws' rest := by
  obtain ⟨us, rfl, hus⟩ := h
  rw [List.map_append, List.map_eq_append_iff] at hus
  obtain ⟨vs, vs', rfl, hvs, hvs'⟩ := hus
  exact ⟨vs' ++ rest, ⟨vs, List.append_assoc _ _ _, hvs⟩, vs', rfl, hvs'⟩

theorem current_eq (h : Begins ts (w :: ws) rest) : current ts = w.token := by
  obtain ⟨t, more, rfl, ht, -⟩ := h.exists_cons
  exact ht

theorem flagged (h : Begins ts ws rest) (hflagged : Lexeme.Flagged ts) :
    Lexeme.Flagged rest := by
  obtain ⟨us, rfl, -⟩ := h
  clear * - hflagged
  induction us with
  | nil => exact hflagged
  | cons t us ih => exact ih hflagged.2

end Begins

/-- Whether an expression ends before a token, because nothing that belongs to it begins with
the token. -/
def closes : Token → Bool
  | .rightParen | .rightBracket | .comma | .eof => true
  | _ => false

/-- Whether an operand ends before a token. -/
def endsOperand (t : Token) : Bool := closes t || (binaryOp? t).isSome

theorem ne_of_endsOperand {t t' : Token} (h : endsOperand t = true)
    (h' : endsOperand t' = false) : t ≠ t' := by
  rintro rfl
  rw [h] at h'
  cases h'

theorem binaryOp?_of_closes {t : Token} (h : closes t = true) : binaryOp? t = none := by
  cases t <;> first | rfl | cases h

/-! ## Node tests and steps -/

variable {scope : Scope} {ts rest : List Lexeme} {depth : Nat}

theorem star_not_mem {n : List Char} (h : IsPlainName n) : '*' ∉ n := by
  obtain ⟨c, cs, rfl, hc, hcs⟩ := h
  intro hmem
  rcases List.mem_cons.1 hmem with rfl | hmem
  · exact absurd hc (by decide)
  · exact absurd (hcs '*' hmem) (by decide)

/-- A name without a star stands for itself. -/
theorem nameTest_of_not_mem {n : List Char} (h : '*' ∉ n) :
    nameTest n = .name (String.ofList n) := by
  unfold nameTest
  split
  · rename_i heq
    have hmem : '*' ∈ n := List.mem_reverse.1 (heq ▸ List.mem_cons_self)
    exact absurd hmem h
  · rfl

theorem nameTest_star {space : List Char} (h : IsPlainName space) :
    nameTest (space ++ [':'] ++ ['*']) = .inNamespace (String.ofList (space ++ [':'])) := by
  have hne : space ≠ [] := by
    obtain ⟨c, cs, rfl, -⟩ := h
    exact nofun
  obtain ⟨c, cs, hrev⟩ : ∃ c cs, space.reverse = c :: cs :=
    List.exists_cons_of_ne_nil (fun hnil => hne (List.reverse_eq_nil_iff.1 hnil))
  have hspace : space = (c :: cs).reverse := by rw [← hrev, List.reverse_reverse]
  have hall : (space ++ [':'] ++ ['*']).reverse = '*' :: ':' :: c :: cs := by
    simp [hrev]
  unfold nameTest
  rw [hall]
  simp [hspace]

theorem parseNameTest_plain {n : List Char} (hparen : current ts ≠ .leftParen) :
    parseNameTest n ts = .ok (nameTest n, ⟨ts, Nat.le_refl _⟩) := by
  rw [parseNameTest, if_neg hparen]

theorem parseNameTest_kind (kind : String) {test : NodeTest}
    (hkind : NodeTest.ofKindName? kind = some test)
    (h : Begins ts [.leftParen, .rightParen] rest) :
    ∃ hrest, parseNameTest kind.toList ts = .ok (test, ⟨rest, hrest⟩) := by
  obtain ⟨t, more, rfl, ht, h⟩ := h.exists_cons
  obtain ⟨t', more', rfl, ht', h⟩ := h.exists_cons
  obtain rfl := h.eq_of_nil
  have hfirst : current (t :: t' :: more') = .leftParen := ht
  have hsecond : current ((t :: t' :: more').drop 1) = .rightParen := ht'
  refine ⟨by simp; omega, ?_⟩
  rw [parseNameTest, if_pos hfirst]
  simp only [hsecond, String.ofList_toList, hkind]
  rfl

theorem parseNameTest_target {target : List Char}
    (h : Begins ts [.leftParen, .quoted target, .rightParen] rest) :
    ∃ hrest, parseNameTest "processing-instruction".toList ts
      = .ok (.pi (some (String.ofList target)), ⟨rest, hrest⟩) := by
  obtain ⟨t, more, rfl, ht, h⟩ := h.exists_cons
  obtain ⟨t', more', rfl, ht', h⟩ := h.exists_cons
  obtain ⟨t'', more'', rfl, ht'', h⟩ := h.exists_cons
  obtain rfl := h.eq_of_nil
  have hfirst : current (t :: t' :: t'' :: more'') = .leftParen := ht
  have hsecond : current ((t :: t' :: t'' :: more'').drop 1) = .string target := ht'
  have hclose : t''.token = .rightParen := ht''
  have hexpect : expect .rightParen (((t :: t' :: t'' :: more'').drop 1).drop 1) .unclosedPi
      = .ok ⟨more'', by simp⟩ := if_pos hclose
  refine ⟨by simp; omega, ?_⟩
  rw [parseNameTest, if_pos hfirst]
  simp only [hsecond, if_true, hexpect]

/-- The rest of a node test that begins with a name. -/
theorem exists_parseNameTest {test : NodeTest} (htest : test.Spellable) (hany : test ≠ .any)
    (hparen : current rest ≠ .leftParen) :
    ∃ n ws, test.words = .name n :: ws ∧ ∀ ts, Begins ts ws rest →
      ∃ hrest, parseNameTest n ts = .ok (test, ⟨rest, hrest⟩) := by
  have hplain : ∀ n, nameTest n = test → ∀ ts, Begins ts [] rest →
      ∃ hrest, parseNameTest n ts = .ok (test, ⟨rest, hrest⟩) := by
    intro n hn ts hts
    obtain rfl := hts.eq_of_nil
    exact ⟨Nat.le_refl _, by rw [parseNameTest_plain hparen, hn]⟩
  cases test with
  | any => exact absurd rfl hany
  | name n =>
    have hstar : '*' ∉ n.toList := by
      rcases htest with hname | ⟨space, local_, hspace, hlocal, heq⟩
      · exact star_not_mem hname
      · rw [heq, List.mem_append, List.mem_cons, not_or, not_or]
        exact ⟨star_not_mem hspace, by decide, star_not_mem hlocal⟩
    refine ⟨n.toList, [], rfl, hplain _ ?_⟩
    rw [nameTest_of_not_mem hstar, String.ofList_toList]
  | inNamespace start =>
    obtain ⟨space, hspace, heq⟩ := htest
    refine ⟨start.toList ++ ['*'], [], rfl, hplain _ ?_⟩
    rw [heq, nameTest_star hspace, ← heq, String.ofList_toList]
  | node => exact ⟨_, _, rfl, fun ts hts => parseNameTest_kind "node" rfl hts⟩
  | text => exact ⟨_, _, rfl, fun ts hts => parseNameTest_kind "text" rfl hts⟩
  | comment => exact ⟨_, _, rfl, fun ts hts => parseNameTest_kind "comment" rfl hts⟩
  | pi target =>
    cases target with
    | none =>
      exact ⟨_, _, rfl, fun ts hts =>
        parseNameTest_kind "processing-instruction" rfl hts⟩
    | some target =>
      refine ⟨_, _, rfl, fun ts hts => ?_⟩
      obtain ⟨hrest, h⟩ := parseNameTest_target hts
      exact ⟨hrest, by rw [h, String.ofList_toList]⟩

/-- A node test is read after its axis. -/
theorem exists_parseStepHead {axis : Axis} {test : NodeTest} (htest : test.Spellable)
    (h : Begins ts (axis.stepWords test) rest) (hparen : current rest ≠ .leftParen) :
    ∃ hrest, parseStepHead .child false ts = .ok ((axis, test), ⟨rest, hrest⟩) := by
  obtain ⟨⟨token, start, flag⟩, more, rfl, htoken, hmore⟩ := h.exists_cons
  obtain rfl : token = .name axis.spelled.toList := htoken
  obtain ⟨t', more', rfl, ht', htest'⟩ := hmore.exists_cons
  have hcolons : current (t' :: more') = .doubleColon := ht'
  by_cases hany : test = .any
  · subst hany
    obtain ⟨t'', more'', rfl, ht'', hend⟩ := htest'.exists_cons
    obtain rfl := hend.eq_of_nil
    have hstar : current ((t' :: t'' :: more'').drop 1) = .star := ht''
    refine ⟨by simp; omega, ?_⟩
    rw [parseStepHead, if_pos hcolons]
    simp only [Bool.false_eq_true, if_false, String.ofList_toList, Axis.ofName?_spelled, hstar]
    rfl
  · obtain ⟨n, ws, hwords, hread⟩ := exists_parseNameTest htest hany hparen
    rw [hwords] at htest'
    obtain ⟨t'', more'', rfl, ht'', hend⟩ := htest'.exists_cons
    obtain ⟨hrest, hread⟩ := hread more'' hend
    have hname : current ((t' :: t'' :: more'').drop 1) = .name n := ht''
    have hread' : parseNameTest n (((t' :: t'' :: more'').drop 1).drop 1)
        = .ok (test, ⟨rest, hrest⟩) := hread
    refine ⟨by simp; omega, ?_⟩
    rw [parseStepHead, if_pos hcolons]
    simp only [Bool.false_eq_true, if_false, String.ofList_toList, Axis.ofName?_spelled, hname,
      hread']

/-! ## Expressions in lists -/

/-- A phrase is read as an expression of its own, up to a token that closes it. -/
def ReadsWhole (scope : Scope) (p : Phrase) : Prop :=
  ∀ ⦃ts rest : List Lexeme⦄ ⦃depth : Nat⦄, Begins ts (p.words 7) rest → Lexeme.Flagged ts →
    closes (current rest) = true → depth ≤ maxDepth →
    Reads (bare (parseExpression scope 0 ts depth)) (depth + 1 + p.peak)
      (.ok (p.expr, rest, depth))

/-- Predicates are read up to what is no bracket. -/
theorem reads_predicates {ps : List Phrase} (hps : ∀ p ∈ ps, ReadsWhole scope p)
    (h : Begins ts (Phrase.predicateWords 7 ps) rest) (hflagged : Lexeme.Flagged ts)
    (hrest : current rest ≠ .leftBracket) (hdepth : depth ≤ maxDepth) :
    Reads (bare (parsePredicates scope ts depth)) (depth + Phrase.listPeak ps)
      (.ok (Phrase.exprAll ps, rest, depth)) := by
  induction ps generalizing ts depth with
  | nil =>
    obtain rfl := h.eq_of_nil
    rw [bare_parsePredicates_stop hrest]
    exact .same _ hdepth
  | cons p ps ih =>
    rw [List.forall_mem_cons] at hps
    obtain ⟨t, more, rfl, ht, hmore⟩ := h.exists_cons
    obtain ⟨mid, hp, hmid⟩ := hmore.exists_append
    have hflagged' := hp.flagged hflagged.2
    have hclose : closes (current mid) = true := by
      rw [hmid.current_eq]
      rfl
    obtain ⟨t', more', rfl, ht', hlast⟩ := hmid.exists_cons
    rw [bare_parsePredicates_bracket ht]
    refine ((Reads.descend more depth).bind fun hle =>
      (hps.1 hp hflagged.2 hclose hle).bind fun _ =>
      Reads.take ht' (((ih hps.2 hlast hflagged'.2 hle).map _).map _)).of_top_eq ?_
    rw [Phrase.listPeak]
    omega

/-- Words that begin an expression do not close one, in parentheses or not. -/
theorem exists_grouped {bare : Bool} {ws : List Word} (more : List Word)
    (h : ∃ w ws', ws = w :: ws' ∧ w.token ≠ .rightParen) :
    ∃ w ws', Word.grouped bare ws ++ more = w :: ws' ∧ w.token ≠ .rightParen := by
  cases bare with
  | true =>
    obtain ⟨w, ws', rfl, hw⟩ := h
    exact ⟨w, ws' ++ more, rfl, hw⟩
  | false => exact ⟨.leftParen, _, rfl, nofun⟩

/-- No phrase begins with a parenthesis that closes. -/
theorem exists_words : (p : Phrase) → ∃ w ws, p.words 7 = w :: ws ∧ w.token ≠ .rightParen
  | .root => ⟨_, _, rfl, nofun⟩
  | .step axis test predicates => ⟨_, _, rfl, nofun⟩
  | .path input axis test predicates => by
    rw [Phrase.words]
    split
    · exact ⟨_, _, rfl, nofun⟩
    · rw [List.append_assoc]
      exact exists_grouped _ (exists_words input)
  | .filter base predicates => by
    rw [Phrase.words]
    exact exists_grouped _ (exists_words base)
  | .call f arguments => ⟨_, _, rfl, nofun⟩
  | .binary op left right => by
    rw [Phrase.words]
    exact exists_grouped _ (exists_words left)
  | .negate operand => ⟨_, _, rfl, nofun⟩
  | .number whole fraction => ⟨_, _, rfl, nofun⟩
  | .string value => ⟨_, _, rfl, nofun⟩

/-- An argument is followed by a comma or by the parenthesis that closes. -/
theorem closes_argumentWords {ps : List Phrase}
    (h : Begins ts (Phrase.argumentWords 7 false ps) rest) : closes (current ts) = true := by
  cases ps with
  | nil =>
    rw [h.current_eq]
    rfl
  | cons p ps =>
    have hcomma : Begins ts (.comma :: (p.words 7 ++ Phrase.argumentWords 7 false ps)) rest := h
    rw [hcomma.current_eq]
    rfl

/-- Arguments are read through the parenthesis after them. -/
theorem reads_arguments {ps : List Phrase} {first : Bool} (hps : ∀ p ∈ ps, ReadsWhole scope p)
    (h : Begins ts (Phrase.argumentWords 7 first ps) rest) (hflagged : Lexeme.Flagged ts)
    (hdepth : depth ≤ maxDepth) :
    Reads (bare (parseArguments scope first ts depth)) (depth + Phrase.listPeak ps)
      (.ok (Phrase.exprAll ps, rest, depth + ps.length)) := by
  induction ps generalizing ts depth first with
  | nil =>
    obtain ⟨t, more, rfl, ht, hmore⟩ := h.exists_cons
    obtain rfl := hmore.eq_of_nil
    rw [bare_parseArguments_close ht]
    exact .same _ hdepth
  | cons p ps ih =>
    rw [List.forall_mem_cons] at hps
    have hread : ∀ {ts}, Begins ts (p.words 7 ++ Phrase.argumentWords 7 false ps) rest →
        Lexeme.Flagged ts → Reads (readArguments scope ts depth)
          (depth + Phrase.listPeak (p :: ps))
          (.ok (Phrase.exprAll (p :: ps), rest, depth + (p :: ps).length)) := by
      intro ts hts hflagged
      obtain ⟨mid, hp, hmid⟩ := hts.exists_append
      have hclose := closes_argumentWords hmid
      have hlength : depth + 1 + ps.length = depth + (p :: ps).length := by
        rw [List.length_cons]
        omega
      refine ((Reads.descend ts depth).bind fun hle =>
        (hps.1 hp hflagged hclose hle).bind fun _ =>
        (hlength ▸ ih hps.2 hmid (hp.flagged hflagged) hle).map _).of_top_eq ?_
      rw [Phrase.listPeak]
      omega
    cases first with
    | true =>
      obtain ⟨w, ws, hwords, hw⟩ := exists_words p
      have hts : Begins ts (p.words 7 ++ Phrase.argumentWords 7 false ps) rest := h
      have hcurrent : current ts = w.token := by
        rw [hwords] at hts
        exact hts.current_eq
      rw [hwords, List.cons_append] at hts
      obtain ⟨t, more, rfl, ht, -⟩ := hts.exists_cons
      rw [bare_parseArguments_first (ht ▸ hw)]
      exact hread h hflagged
    | false =>
      have hts : Begins ts (.comma :: (p.words 7 ++ Phrase.argumentWords 7 false ps)) rest := h
      obtain ⟨t, more, rfl, ht, hmore⟩ := hts.exists_cons
      rw [bare_parseArguments_comma ht]
      exact hread hmore hflagged.2

/-! ## Operands -/

/-- A phrase is read as a primary expression, whatever follows it. -/
def ReadsPrimary (scope : Scope) (ws : List Word) (e : Expr) (peak : Nat) : Prop :=
  ∀ ⦃ts rest : List Lexeme⦄ ⦃depth : Nat⦄, Begins ts ws rest → Lexeme.Flagged ts →
    depth ≤ maxDepth →
    bare (parseOperand scope ts depth) = bare (parseFilterPath scope ts depth) ∧
      Reads (bare (parsePrimary scope ts depth)) (depth + peak) (.ok (e, rest, depth))

/-- A phrase is read with its predicates, up to what is no bracket. -/
def ReadsFilter (scope : Scope) (ws : List Word) (e : Expr) (peak : Nat) : Prop :=
  ∀ ⦃ts rest : List Lexeme⦄ ⦃depth : Nat⦄, Begins ts ws rest → Lexeme.Flagged ts →
    current rest ≠ .leftBracket → depth ≤ maxDepth →
    bare (parseOperand scope ts depth) = bare (parseFilterPath scope ts depth) ∧
      Reads (bare (parseFilter scope ts depth)) (depth + peak) (.ok (e, rest, depth))

/-- A phrase is read as an operand, up to a token that ends it; `left` levels more are counted
then. -/
def ReadsOperand (scope : Scope) (ws : List Word) (e : Expr) (peak left : Nat) : Prop :=
  ∀ ⦃ts rest : List Lexeme⦄ ⦃depth : Nat⦄, Begins ts ws rest → Lexeme.Flagged ts →
    endsOperand (current rest) = true → depth ≤ maxDepth →
    Reads (bare (parseOperand scope ts depth)) (depth + peak) (.ok (e, rest, depth + left))

variable {ws : List Word} {e : Expr} {peak left : Nat}

theorem ReadsPrimary.filter (h : ReadsPrimary scope ws e peak) : ReadsFilter scope ws e peak := by
  intro ts rest depth hts hflagged hrest hdepth
  obtain ⟨hoperand, hprimary⟩ := h hts hflagged hdepth
  refine ⟨hoperand, ?_⟩
  have hafter : readPredicates scope (e, rest, depth) = .ok (e, rest, depth) := if_neg hrest
  rw [bare_parseFilter]
  exact hprimary.bind_eq hafter

theorem ReadsFilter.operand (h : ReadsFilter scope ws e peak) :
    ReadsOperand scope ws e peak 0 := by
  intro ts rest depth hts hflagged hrest hdepth
  obtain ⟨hoperand, hfilter⟩ := h hts hflagged (ne_of_endsOperand hrest rfl) hdepth
  have hafter : readSteps scope (e, rest, depth) = .ok (e, rest, depth) :=
    readSteps_stop (ne_of_endsOperand hrest rfl) (ne_of_endsOperand hrest rfl)
  rw [hoperand, bare_parseFilterPath]
  exact hfilter.bind_eq hafter

/-- A phrase in parentheses is a primary expression. -/
theorem ReadsWhole.parens {p : Phrase} (h : ReadsWhole scope p) :
    ReadsPrimary scope (Word.grouped false (p.words 7)) p.expr (1 + p.peak) := by
  intro ts rest depth hts hflagged hdepth
  obtain ⟨t, more, rfl, ht, hmore⟩ := Begins.exists_cons hts
  obtain ⟨mid, hp, hmid⟩ := hmore.exists_append
  have hclose : closes (current mid) = true := by
    rw [hmid.current_eq]
    rfl
  obtain ⟨t', more', rfl, ht', hlast⟩ := hmid.exists_cons
  obtain rfl := hlast.eq_of_nil
  have htoken : t.token = .leftParen := ht
  refine ⟨bare_parseOperand_primary (by rw [htoken]; rfl), ?_⟩
  rw [bare_parsePrimary_paren ht]
  refine ((h hp hflagged.2 hclose hdepth).bind fun _ =>
    Reads.take ht' (Reads.same _ hdepth)).of_top_eq ?_
  omega

/-! ## Operators -/

/-- A phrase is read as an operand and operators, up to an operator that binds no tighter;
reading goes on from there. -/
def ReadsOperands (scope : Scope) (ws : List Word) (strength : Nat) (e : Expr)
    (peak left : Nat) : Prop :=
  ∀ ⦃ts rest : List Lexeme⦄ ⦃limit depth : Nat⦄, Begins ts ws rest → Lexeme.Flagged ts →
    limit < strength → endsOperand (current rest) = true →
    (∀ op, binaryOp? (current rest) = some op → op.precedence ≤ strength) → depth ≤ maxDepth →
    Reads (readOperands scope limit ts depth) (depth + peak)
      (bare (parseBinary scope limit e rest (depth + left)))

theorem ReadsOperand.operands (h : ReadsOperand scope ws e peak left) (strength : Nat) :
    ReadsOperands scope ws strength e peak left := by
  intro ts rest limit depth hts hflagged _ hrest _ hdepth
  exact (h hts hflagged hrest hdepth).bind_eq rfl

theorem precedence_pos (op : BinaryOp) : 0 < op.precedence := by
  cases op <;> decide

theorem precedence_le (op : BinaryOp) : op.precedence ≤ 7 := by
  cases op <;> decide

/-- What holds together is read as an expression of its own. -/
theorem ReadsOperands.whole {p : Phrase} (hstrength : 0 < p.strength)
    (h : ReadsOperands scope (p.words 7) p.strength p.expr p.peak p.left) :
    ReadsWhole scope p := by
  intro ts rest depth hts hflagged hclose hdepth
  have hno : ∀ op, binaryOp? (current rest) ≠ some op := by
    intro op
    rw [binaryOp?_of_closes hclose]
    exact nofun
  have hends : endsOperand (current rest) = true := by rw [endsOperand, hclose, Bool.true_or]
  rw [bare_parseExpression]
  refine ((Reads.descend ts depth).bind fun hle => ?_).of_top_eq
    (show max (depth + 1) (depth + 1 + p.peak) = depth + 1 + p.peak by omega)
  have hnext : ∀ n op, binaryOp? (current rest) = some op → op.precedence ≤ n :=
    fun n op hop => absurd hop (hno op)
  have hread := h hts hflagged hstrength hends (hnext _) hle
  rw [bare_parseBinary_stop (hnext 0)] at hread
  exact hread.map _

/-- A phrase that is read as an expression of its own and, where it is not in parentheses, as
operands and operators. -/
structure ReadsBack (scope : Scope) (p : Phrase) : Prop where
  whole : ReadsWhole scope p
  operands : ReadsOperands scope (p.words 7) p.strength p.expr p.peak p.left

theorem ReadsOperands.readsBack {p : Phrase} (hstrength : 0 < p.strength)
    (h : ReadsOperands scope (p.words 7) p.strength p.expr p.peak p.left) : ReadsBack scope p :=
  ⟨h.whole hstrength, h⟩

/-- A phrase in its place: in parentheses unless it binds tighter than `low`. -/
theorem ReadsBack.grouped {p : Phrase} (h : ReadsBack scope p) {low limit : Nat}
    (hlimit : limit ≤ low)
    (hts : Begins ts (Word.grouped (low < p.strength) (p.words 7)) rest)
    (hflagged : Lexeme.Flagged ts) (hrest : endsOperand (current rest) = true)
    (hnext : ∀ op, binaryOp? (current rest) = some op → op.precedence ≤ low + 1)
    (hdepth : depth ≤ maxDepth) :
    Reads (readOperands scope limit ts depth)
      (depth + Phrase.groupedPeak (low < p.strength) p.peak)
      (bare (parseBinary scope limit p.expr rest
        (depth + if low < p.strength then p.left else 0))) := by
  by_cases hbare : low < p.strength
  · rw [decide_eq_true hbare] at hts ⊢
    rw [if_pos hbare]
    exact h.operands hts hflagged (by omega) hrest (fun op hop => (hnext op hop).trans hbare)
      hdepth
  · rw [decide_eq_false hbare] at hts ⊢
    rw [if_neg hbare]
    have hparens : ReadsOperands scope (Word.grouped false (p.words 7)) (limit + 8) p.expr
        (1 + p.peak) 0 := h.whole.parens.filter.operand.operands (limit + 8)
    have hprecedence : ∀ op, binaryOp? (current rest) = some op → op.precedence ≤ limit + 8 :=
      fun op _ => (precedence_le op).trans (by omega)
    exact hparens hts hflagged (by omega) hrest hprecedence hdepth

/-- A phrase in its place, where no operator follows that binds tighter than `limit`. -/
theorem ReadsBack.upTo {p : Phrase} (h : ReadsBack scope p) {limit : Nat}
    (hts : Begins ts (Word.grouped (limit < p.strength) (p.words 7)) rest)
    (hflagged : Lexeme.Flagged ts) (hrest : endsOperand (current rest) = true)
    (hnext : ∀ op, binaryOp? (current rest) = some op → op.precedence ≤ limit)
    (hdepth : depth ≤ maxDepth) :
    Reads (readOperands scope limit ts depth)
      (depth + Phrase.groupedPeak (limit < p.strength) p.peak)
      (.ok (p.expr, rest, depth + if limit < p.strength then p.left else 0)) := by
  have hread := h.grouped (Nat.le_refl limit) hts hflagged hrest
    (fun op hop => (hnext op hop).trans (Nat.le_succ limit)) hdepth
  rwa [bare_parseBinary_stop hnext] at hread

/-- An operator and what follows it, after what is on its left. -/
theorem ReadsBack.operator {op : BinaryOp} {r : Phrase} (hr : ReadsBack scope r) {lhs : Expr}
    (hset : op = .union → lhs.type = .nodeSet ∧ r.expr.type = .nodeSet) {limit : Nat}
    (hlimit : limit < op.precedence)
    (hts : Begins ts (op.word :: Word.grouped (op.precedence < r.strength) (r.words 7)) rest)
    (hflagged : Lexeme.Flagged ts) (hrest : endsOperand (current rest) = true)
    (hnext : ∀ op', binaryOp? (current rest) = some op' → op'.precedence ≤ op.precedence) :
    Reads (bare (parseBinary scope limit lhs ts depth))
      (depth + 1 + Phrase.groupedPeak (op.precedence < r.strength) r.peak)
      (bare (parseBinary scope limit (.binary op lhs r.expr) rest
        (depth + 1 + if op.precedence < r.strength then r.left else 0))) := by
  obtain ⟨t, more, rfl, ht, hright⟩ := hts.exists_cons
  have hop : binaryOp? t.token = some op := ht ▸ op.binaryOp?_word
  have hunion : ¬ (op = .union && (lhs.type != .nodeSet || r.expr.type != .nodeSet)) = true := by
    rw [Bool.and_eq_true, decide_eq_true_eq]
    rintro ⟨hop, hothers⟩
    simp [hset hop] at hothers
  rw [bare_parseBinary_op hop hlimit]
  refine ((Reads.descend more depth).bind fun hle =>
    (hr.upTo hright hflagged.2 hrest hnext hle).bind_eq (if_neg hunion)).of_top_eq ?_
  omega

/-- Two phrases with an operator between them. -/
theorem ReadsBack.binary {op : BinaryOp} {l r : Phrase} (hl : ReadsBack scope l)
    (hr : ReadsBack scope r)
    (hset : op = .union → l.expr.type = .nodeSet ∧ r.expr.type = .nodeSet) :
    ReadsBack scope (.binary op l r) := by
  refine ReadsOperands.readsBack (precedence_pos op) ?_
  intro ts rest limit depth hts hflagged hlimit hrest hnext hdepth
  change limit < op.precedence at hlimit
  rw [Phrase.words] at hts
  obtain ⟨mid, hleft, hright⟩ := hts.exists_append
  have hoperator : binaryOp? (current mid) = some op := by
    rw [hright.current_eq]
    exact op.binaryOp?_word
  have hends : endsOperand (current mid) = true := by
    rw [endsOperand, hoperator, Option.isSome_some, Bool.or_true]
  have hself : ∀ op', binaryOp? (current mid) = some op' →
      op'.precedence ≤ op.precedence - 1 + 1 := by
    intro op' hop'
    obtain rfl : op = op' := Option.some.inj (hoperator.symm.trans hop')
    omega
  rw [Phrase.left, Phrase.peak, Phrase.expr, ← Nat.add_assoc, ← Nat.add_assoc]
  refine ((hl.grouped (Nat.le_sub_one_of_lt hlimit) hleft hflagged hends hself hdepth).trans
    fun hle => hr.operator hset hlimit hright (hleft.flagged hflagged) hrest
      hnext).of_top_eq ?_
  omega

/-- A minus takes its operand only, for no operator binds tighter than it. -/
theorem ReadsBack.minus {p : Phrase} (h : ReadsBack scope p) :
    ReadsOperand scope ((Phrase.negate p).words 7) (.negate p.expr) (Phrase.negate p).peak 1 := by
  intro ts rest depth hts hflagged hrest _
  rw [Phrase.words] at hts
  obtain ⟨t, more, rfl, ht, hmore⟩ := hts.exists_cons
  have hread : Reads (bare (parseExpression scope 7 more (depth + 1)))
      (depth + 2 + Phrase.groupedPeak (7 < p.strength) p.peak) (.ok (p.expr, rest, depth + 1)) := by
    rw [bare_parseExpression]
    refine ((Reads.descend more (depth + 1)).bind fun hle => ?_).of_top_eq
      (Nat.max_eq_right (Nat.le_add_right _ _))
    exact (h.upTo hmore hflagged.2 hrest (fun op _ => precedence_le op) hle).map _
  rw [bare_parseOperand_minus ht]
  refine ((Reads.descend more depth).bind fun _ => hread.map _).of_top_eq ?_
  rw [Phrase.peak]
  omega

theorem ReadsBack.negate {p : Phrase} (h : ReadsBack scope p) : ReadsBack scope (.negate p) :=
  (h.minus.operands 8).readsBack (Nat.succ_pos 7)

/-! ## Primary expressions -/

theorem readsPrimary_number (whole : List Char) (fraction : Option (List Char)) :
    ReadsPrimary scope ((Phrase.number whole fraction).words 7)
      (Phrase.number whole fraction).expr 0 := by
  intro ts rest depth hts _ hdepth
  obtain ⟨t, more, rfl, ht, hmore⟩ := hts.exists_cons
  obtain rfl := hmore.eq_of_nil
  have hbegins : beginsPrimary t.token = true := by
    rw [ht]
    rfl
  exact ⟨bare_parseOperand_primary hbegins, Reads.of_eq (bare_parsePrimary_number ht) hdepth⟩

theorem readsPrimary_string (value : String) :
    ReadsPrimary scope ((Phrase.string value).words 7) (.string value) 0 := by
  intro ts rest depth hts _ hdepth
  obtain ⟨t, more, rfl, ht, hmore⟩ := hts.exists_cons
  obtain rfl := hmore.eq_of_nil
  have hbegins : beginsPrimary t.token = true := by
    rw [ht]
    rfl
  have hread : bare (parsePrimary scope (t :: more) depth) = .ok (.string value, more, depth) := by
    rw [bare_parsePrimary_string ht, String.ofList_toList]
  exact ⟨bare_parseOperand_primary hbegins, Reads.of_eq hread hdepth⟩

/-- A function with its arguments: as many as it takes, and node-sets where it takes those. -/
theorem readsPrimary_call {f : CoreFunction} {ps : List Phrase}
    (hps : ∀ p ∈ ps, ReadsWhole scope p) (haccepts : f.Accepts ps.length)
    (hset : f.takesNodeSet ps.length = true → ∀ e ∈ Phrase.exprAll ps, e.type = .nodeSet) :
    ReadsPrimary scope ((Phrase.call f ps).words 7) (.call f (Phrase.exprAll ps))
      (Phrase.listPeak ps) := by
  intro ts rest depth hts hflagged hdepth
  rw [Phrase.words] at hts
  obtain ⟨t, more, rfl, ht, hmore⟩ := hts.exists_cons
  obtain ⟨t', more', rfl, ht', hmore'⟩ := hmore.exists_cons
  have hname : t.token = .name f.spelled.toList := ht
  have hparen : t.beforeParen = true := hflagged.1.2 ht'
  have hkind : NodeTest.ofKindName? (String.ofList f.spelled.toList) = none := by
    rw [String.ofList_toList]
    exact f.ofKindName?_spelled
  refine ⟨bare_parseOperand_call hname hparen hkind, ?_⟩
  have hothers : ¬ (f.takesNodeSet ps.length
      && (Phrase.exprAll ps).any fun e => e.type != .nodeSet) = true := by
    rw [Bool.and_eq_true, List.any_eq_true]
    rintro ⟨htakes, e, he, hother⟩
    simp [hset htakes e he] at hother
  have hcall : readCall f.spelled.toList depth (Phrase.exprAll ps, rest, depth + ps.length)
      = .ok (.call f (Phrase.exprAll ps), rest, depth) := by
    simp only [readCall, String.ofList_toList, Phrase.length_exprAll,
      CoreFunction.resolve?_spelled haccepts, if_neg hothers]
  rw [bare_parsePrimary_call hname]
  exact Reads.take ht' ((reads_arguments hps hmore' hflagged.2.2 hdepth).bind_eq hcall)

/-- A primary expression with predicates. -/
theorem ReadsPrimary.filter_predicates {ps : List Phrase} (h : ReadsPrimary scope ws e peak)
    (hset : e.type = .nodeSet) (hne : ps ≠ []) (hps : ∀ p ∈ ps, ReadsWhole scope p) :
    ReadsFilter scope (ws ++ Phrase.predicateWords 7 ps) (.filter e (Phrase.exprAll ps))
      (max peak (Phrase.listPeak ps)) := by
  intro ts rest depth hts hflagged hrest hdepth
  obtain ⟨mid, hbase, hpredicates⟩ := hts.exists_append
  obtain ⟨hoperand, hprimary⟩ := h hbase hflagged hdepth
  refine ⟨hoperand, ?_⟩
  have hbracket : current mid = .leftBracket := by
    obtain ⟨p, ps, rfl⟩ := List.exists_cons_of_ne_nil hne
    exact hpredicates.current_eq
  have hafter : readPredicates scope (e, mid, depth)
      = replace (Expr.filter e) (bare (parsePredicates scope mid depth)) := by
    simp [readPredicates, hbracket, hset]
  rw [bare_parseFilter]
  refine (hprimary.bind fun _ => ?_).of_top_eq (Nat.add_max_add_left _ _ _)
  rw [hafter]
  exact (reads_predicates hps hpredicates (hbase.flagged hflagged) hrest hdepth).map _

end Grammar

end XmlTree
