/-
  Proofs/Printing.lean --- a phrase is read back as its tree.

  WHAT THIS FILE IS FOR.  Steps are read one after the other, so a path is not read as a tree
  of its own: what is read so far is the input of the next step, and all the steps of a path
  together count as many levels as there are.  With paths in place every kind of phrase is
  read back, and so is every text of a phrase whose parts fit together.
-/
import XmlTree.Proofs.Parsing

set_option autoImplicit false

namespace XmlTree

namespace Grammar

variable {scope : Scope} {ts rest : List Lexeme} {depth : Nat}

/-! ## Steps -/

section Steps

variable {input : Option Expr} {axis : Axis} {test : NodeTest} {ps : List Phrase}

/-- One step with its predicates. -/
theorem reads_step (hinput : ∀ e, input = some e → e.type = .nodeSet) (htest : test.Spellable)
    (hps : ∀ p ∈ ps, ReadsWhole scope p)
    (hts : Begins ts (axis.stepWords test ++ Phrase.predicateWords 7 ps) rest)
    (hflagged : Lexeme.Flagged ts) (hparen : current rest ≠ .leftParen)
    (hbracket : current rest ≠ .leftBracket) (hdepth : depth ≤ maxDepth) :
    Reads (bare (parseStep scope input ts depth)) (depth + Phrase.listPeak ps)
      (.ok (stepFrom input axis test (Phrase.exprAll ps), rest, depth)) := by
  obtain ⟨mid, hhead, hpredicates⟩ := hts.exists_append
  have hmid : current mid ≠ .leftParen := by
    cases ps with
    | nil =>
      obtain rfl := hpredicates.eq_of_nil
      exact hparen
    | cons p ps =>
      rw [Phrase.predicateWords] at hpredicates
      rw [hpredicates.current_eq]
      intro hparen
      cases hparen
  obtain ⟨hlength, hread⟩ := exists_parseStepHead htest hhead hmid
  have hflagged' := hhead.flagged hflagged
  obtain ⟨t, more, rfl, ht, -⟩ := hhead.exists_cons
  rw [bare_parseStep_name hinput ht hread]
  exact (reads_predicates hps hpredicates hflagged' hbracket hdepth).map _

/-- A step, and whatever steps follow it. -/
theorem reads_relativePath (hinput : ∀ e, input = some e → e.type = .nodeSet)
    (htest : test.Spellable) (hps : ∀ p ∈ ps, ReadsWhole scope p)
    (hts : Begins ts (axis.stepWords test ++ Phrase.predicateWords 7 ps) rest)
    (hflagged : Lexeme.Flagged ts) (hparen : current rest ≠ .leftParen)
    (hbracket : current rest ≠ .leftBracket) (hdepth : depth ≤ maxDepth) :
    Reads (bare (parseRelativePath scope input ts depth)) (depth + Phrase.listPeak ps)
      (setBack depth (bare (parseMoreSteps scope
        (stepFrom input axis test (Phrase.exprAll ps)) rest depth))) := by
  rw [bare_parseRelativePath]
  exact (reads_step hinput htest hps hts hflagged hparen hbracket hdepth).bind_eq rfl

/-- A step begins with the name of its axis, which no parenthesis follows. -/
theorem exists_axisName (hts : Begins ts (axis.stepWords test ++ Phrase.predicateWords 7 ps) rest)
    (hflagged : Lexeme.Flagged ts) :
    ∃ t more, ts = t :: more ∧ t.token = .name axis.spelled.toList ∧ t.beforeParen = false := by
  obtain ⟨t, more, rfl, ht, hmore⟩ := hts.exists_cons
  have hcolons : current more = .doubleColon := hmore.current_eq
  have hparen : ¬ t.beforeParen = true := by
    rw [hflagged.1, hcolons]
    exact nofun
  exact ⟨t, more, rfl, ht, Bool.eq_false_iff.2 hparen⟩

end Steps

/-! ## Paths -/

/-- A phrase is read as the beginning of a path, of which `n` steps after the first have been
counted; reading goes on with the steps that follow. -/
def ReadsPath (scope : Scope) (ws : List Word) (e : Expr) (peak n : Nat) : Prop :=
  ∀ ⦃ts rest : List Lexeme⦄ ⦃depth : Nat⦄, Begins ts ws rest → Lexeme.Flagged ts →
    current rest ≠ .leftParen → current rest ≠ .leftBracket → depth ≤ maxDepth →
    Reads (bare (parseOperand scope ts depth)) (depth + peak)
      (setBack depth (bare (parseMoreSteps scope e rest (depth + n))))

/-- A path on its own is an operand. -/
theorem ReadsPath.operand {ws : List Word} {e : Expr} {peak n : Nat}
    (h : ReadsPath scope ws e peak n) : ReadsOperand scope ws e peak 0 := by
  intro ts rest depth hts hflagged hrest hdepth
  have hread := h hts hflagged (ne_of_endsOperand hrest rfl) (ne_of_endsOperand hrest rfl) hdepth
  rwa [bare_parseMoreSteps_stop (ne_of_endsOperand hrest rfl) (ne_of_endsOperand hrest rfl)]
    at hread

section Paths

variable {axis : Axis} {test : NodeTest} {ps : List Phrase}

/-- A step from the context node. -/
theorem readsPath_step (htest : test.Spellable) (hps : ∀ p ∈ ps, ReadsWhole scope p) :
    ReadsPath scope ((Phrase.step axis test ps).words 7) (Phrase.step axis test ps).expr
      (Phrase.step axis test ps).peak 0 := by
  intro ts rest depth hts hflagged hparen hbracket hdepth
  rw [Phrase.words] at hts
  obtain ⟨t, more, rfl, hname, hbefore⟩ := exists_axisName hts hflagged
  rw [bare_parseOperand_name hname hbefore, bare_parseLocationPath_name hname]
  have hinput : ∀ e, (none : Option Expr) = some e → e.type = .nodeSet := fun e hsome => by
    cases hsome
  exact reads_relativePath hinput htest hps hts hflagged hparen hbracket hdepth

/-- A step from the top of the tree. -/
theorem readsPath_root (htest : test.Spellable) (hps : ∀ p ∈ ps, ReadsWhole scope p) :
    ReadsPath scope ((Phrase.path .root axis test ps).words 7)
      (Phrase.path .root axis test ps).expr (Phrase.path .root axis test ps).peak 0 := by
  intro ts rest depth hts hflagged hparen hbracket hdepth
  obtain ⟨t, more, rfl, ht, hmore⟩ := hts.exists_cons
  have hstep : beginsStep (current more) = true := by
    obtain ⟨t', more', rfl, ht', -⟩ := hmore.exists_cons
    rw [show current (t' :: more') = _ from ht']
    rfl
  have hinput : ∀ e, some Expr.root = some e → e.type = .nodeSet :=
    fun e hsome => Option.some.inj hsome ▸ rfl
  have hpeak : (Phrase.path .root axis test ps).peak = Phrase.listPeak ps := by
    simp [Phrase.peak, Phrase.isRoot, Phrase.spine]
  rw [bare_parseOperand_slash ht, bare_parseLocationPath_step ht hstep, hpeak]
  exact reads_relativePath hinput htest hps hmore hflagged.2 hparen hbracket hdepth

/-- A step from what a filter answers. -/
theorem ReadsFilter.path_step {ws : List Word} {e : Expr} {peak : Nat}
    (h : ReadsFilter scope ws e peak) (hset : e.type = .nodeSet) (htest : test.Spellable)
    (hps : ∀ p ∈ ps, ReadsWhole scope p) :
    ReadsPath scope (ws ++ [.slash] ++ (axis.stepWords test ++ Phrase.predicateWords 7 ps))
      (.path e axis test (Phrase.exprAll ps)) (max peak (Phrase.listPeak ps)) 0 := by
  intro ts rest depth hts hflagged hparen hbracket hdepth
  rw [List.append_assoc] at hts
  obtain ⟨mid, hinput, hmid⟩ := hts.exists_append
  have hflagged' := hinput.flagged hflagged
  obtain ⟨t, more, rfl, ht, hmore⟩ := hmid.exists_cons
  have hslash : t.token = .slash := ht
  have hnone : current (t :: more) ≠ .leftBracket := by
    rw [show current (t :: more) = .slash from hslash]
    exact nofun
  obtain ⟨hoperand, hfilter⟩ := h hinput hflagged hnone hdepth
  have hinput' : ∀ e', some e = some e' → e'.type = .nodeSet :=
    fun e' hsome => Option.some.inj hsome ▸ hset
  have hafter : readSteps scope (e, t :: more, depth)
      = bare (parseRelativePath scope (some e) more depth) := if_pos hslash
  rw [hoperand, bare_parseFilterPath]
  refine (hfilter.bind fun _ => ?_).of_top_eq (Nat.add_max_add_left _ _ _)
  rw [hafter]
  exact reads_relativePath hinput' htest hps hmore hflagged'.2 hparen hbracket hdepth

/-- One step more. -/
theorem ReadsPath.path_step {ws : List Word} {e : Expr} {peak n : Nat}
    (h : ReadsPath scope ws e peak n) (hset : e.type = .nodeSet) (htest : test.Spellable)
    (hps : ∀ p ∈ ps, ReadsWhole scope p) :
    ReadsPath scope (ws ++ [.slash] ++ (axis.stepWords test ++ Phrase.predicateWords 7 ps))
      (.path e axis test (Phrase.exprAll ps)) (max peak (n + 1 + Phrase.listPeak ps))
      (n + 1) := by
  intro ts rest depth hts hflagged hparen hbracket hdepth
  rw [List.append_assoc] at hts
  obtain ⟨mid, hinput, hmid⟩ := hts.exists_append
  have hflagged' := hinput.flagged hflagged
  obtain ⟨t, more, rfl, ht, hmore⟩ := hmid.exists_cons
  have hslash : t.token = .slash := ht
  have hinput' : ∀ e', some e = some e' → e'.type = .nodeSet :=
    fun e' hsome => Option.some.inj hsome ▸ hset
  have hcurrent : current (t :: more) = .slash := hslash
  have hstep : depth + n + 1 ≤ maxDepth →
      Reads (bare (parseStep scope (some e) more (depth + n + 1)))
        (depth + n + 1 + Phrase.listPeak ps)
        (.ok (.path e axis test (Phrase.exprAll ps), rest, depth + n + 1)) := fun hle =>
    reads_step hinput' htest hps hmore hflagged'.2 hparen hbracket hle
  refine ((h hinput hflagged (by rw [hcurrent]; exact nofun) (by rw [hcurrent]; exact nofun)
    hdepth).trans fun _ => ?_).of_top_eq
    (show max (depth + peak) (depth + n + 1 + Phrase.listPeak ps) = _ by omega)
  rw [bare_parseMoreSteps_slash hslash]
  refine Reads.map _ (((Reads.descend more (depth + n)).bind fun hle =>
    (hstep hle).bind_eq rfl).of_top_eq ?_)
  omega

end Paths

/-! ## Phrases -/

/-- A phrase is read wherever it can stand. -/
structure ReadsInPlace (scope : Scope) (p : Phrase) : Prop extends ReadsBack scope p where
  path : ∀ n, p.spine = n + 1 → ReadsPath scope (p.words 7) p.expr p.peak n
  filter : p.beginsPath = true → p.spine = 0 → ReadsFilter scope (p.words 7) p.expr p.peak
  primary : p.beginsFilter = true → ReadsPrimary scope (p.words 7) p.expr p.peak

namespace ReadsInPlace

variable {p : Phrase} {ps : List Phrase} {axis : Axis} {test : NodeTest}

/-- What neither a path nor a filter begins with. -/
theorem of_readsBack (h : ReadsBack scope p) (hpath : p.beginsPath = false)
    (hspine : p.spine = 0) (hfilter : p.beginsFilter = false) : ReadsInPlace scope p where
  toReadsBack := h
  path n hn := by omega
  filter hbegins := by simp [hpath] at hbegins
  primary hbegins := by simp [hfilter] at hbegins

theorem root : ReadsInPlace scope .root := by
  have hwhole : ReadsWhole scope .root := by
    intro ts rest depth hts hflagged hclose hdepth
    obtain ⟨t, more, rfl, ht, hmore⟩ := hts.exists_cons
    obtain rfl := hmore.eq_of_nil
    have hstep : beginsStep (current more) = false := by
      revert hclose
      cases current more <;> simp [closes, beginsStep]
    have hnone : ∀ op, binaryOp? (current more) = some op → op.precedence ≤ 0 := by
      rw [binaryOp?_of_closes hclose]
      exact nofun
    have hread : readOperands scope 0 (t :: more) (depth + 1) = .ok (.root, more, depth + 1) := by
      rw [readOperands, bare_parseOperand_slash ht, bare_parseLocationPath_root ht hstep]
      exact bare_parseBinary_stop hnone
    rw [bare_parseExpression]
    refine (Reads.descend (t :: more) depth).bind_eq ?_
    rw [hread]
    rfl
  refine of_readsBack ⟨hwhole, ?_⟩ rfl rfl rfl
  intro ts rest limit depth _ _ hlimit
  exact absurd hlimit (Nat.not_lt_zero limit)

theorem of_path (hpath : ReadsPath scope (p.words 7) p.expr p.peak (p.spine - 1))
    (hspine : 0 < p.spine) (hstrength : p.strength = 8) (hleft : p.left = 0)
    (hfilter : p.beginsFilter = false) : ReadsInPlace scope p where
  toReadsBack := by
    refine ReadsOperands.readsBack (by omega) ?_
    rw [hleft]
    exact hpath.operand.operands p.strength
  path n hn := by
    have hcount : p.spine - 1 = n := by omega
    exact hcount ▸ hpath
  filter _ hnone := by omega
  primary hbegins := by simp [hfilter] at hbegins

theorem of_filter (hfilter : ReadsFilter scope (p.words 7) p.expr p.peak)
    (hspine : p.spine = 0) (hstrength : p.strength = 8) (hleft : p.left = 0)
    (hprimary : p.beginsFilter = true → ReadsPrimary scope (p.words 7) p.expr p.peak) :
    ReadsInPlace scope p where
  toReadsBack := by
    refine ReadsOperands.readsBack (by omega) ?_
    rw [hleft]
    exact hfilter.operand.operands p.strength
  path n hn := by omega
  filter _ _ := hfilter
  primary := hprimary

theorem of_primary (hprimary : ReadsPrimary scope (p.words 7) p.expr p.peak)
    (hspine : p.spine = 0) (hstrength : p.strength = 8) (hleft : p.left = 0) :
    ReadsInPlace scope p :=
  of_filter hprimary.filter hspine hstrength hleft fun _ => hprimary

/-- What a filter begins with, in parentheses unless it can stand bare. -/
theorem grouped_primary (h : ReadsInPlace scope p) :
    ReadsPrimary scope (Word.grouped p.beginsFilter (p.words 7)) p.expr
      (Phrase.groupedPeak p.beginsFilter p.peak) := by
  cases hbare : p.beginsFilter with
  | true => exact h.primary hbare
  | false => exact h.whole.parens

/-- A step from what any phrase answers. -/
theorem path_step (h : ReadsInPlace scope p) (hset : p.expr.type = .nodeSet)
    (htest : test.Spellable) (hps : ∀ q ∈ ps, ReadsWhole scope q) :
    ReadsInPlace scope (.path p axis test ps) := by
  refine of_path ?_ (Nat.succ_pos _) rfl rfl rfl
  by_cases hroot : p.isRoot = true
  · cases p with
    | root => exact readsPath_root htest hps
    | _ => cases hroot
  · rw [Phrase.words, if_neg hroot, Phrase.peak, if_neg hroot, Phrase.spine, Nat.add_sub_cancel]
    cases hspine : p.spine with
    | zero =>
      have hfilter : ReadsFilter scope (Word.grouped p.beginsPath (p.words 7)) p.expr
          (Phrase.groupedPeak p.beginsPath p.peak) := by
        cases hbare : p.beginsPath with
        | true => exact h.filter hbare hspine
        | false => exact h.whole.parens.filter
      rw [Nat.zero_add]
      exact hfilter.path_step hset htest hps
    | succ n =>
      have hbare : p.beginsPath = true := by
        cases p with
        | step | path => rfl
        | _ => cases hspine
      rw [hbare]
      exact (h.path n hspine).path_step hset htest hps

end ReadsInPlace

/-- Every phrase that can be written, and whose parts fit together, is read back. -/
theorem readsInPlace_of_spellable {p : Phrase} (hspell : p.Spellable)
    (htyped : p.expr.Typed scope) : ReadsInPlace scope p := by
  have hall : ∀ ps : List Phrase, (∀ q ∈ ps, q.expr.Typed scope → ReadsInPlace scope q) →
      (∀ e ∈ Phrase.exprAll ps, e.Typed scope) → ∀ q ∈ ps, ReadsWhole scope q := by
    intro ps ih htyped q hq
    rw [Phrase.exprAll_eq_map, List.forall_mem_map] at htyped
    exact (ih q hq (htyped q hq)).whole
  induction hspell with
  | root => exact .root
  | step axis htest _ ih =>
    rw [Phrase.expr] at htyped
    cases htyped with | step _ _ hpredicates =>
    exact .of_path (readsPath_step htest (hall _ ih hpredicates)) Nat.one_pos rfl rfl rfl
  | path axis _ htest _ ihinput ih =>
    rw [Phrase.expr] at htyped
    cases htyped with | path _ _ hinput hset hpredicates =>
    exact (ihinput hinput).path_step hset htest (hall _ ih hpredicates)
  | filter _ hne _ ihbase ih =>
    rw [Phrase.expr] at htyped
    cases htyped with | filter hbase hset hpredicates =>
    have hfilter := (ihbase hbase).grouped_primary.filter_predicates hset hne (hall _ ih hpredicates)
    rw [← Phrase.words, ← Phrase.expr] at hfilter
    exact .of_filter hfilter rfl rfl rfl fun hbegins => by cases hbegins
  | call f _ ih =>
    rw [Phrase.expr] at htyped
    cases htyped with | call haccepts hset harguments =>
    rw [Phrase.length_exprAll] at haccepts hset
    exact .of_primary (readsPrimary_call (hall _ ih harguments) haccepts hset) rfl rfl rfl
  | binary op _ _ ihleft ihright =>
    rw [Phrase.expr] at htyped
    cases htyped with | binary _ hleft hright hset =>
    exact .of_readsBack ((ihleft hleft).binary (ihright hright).toReadsBack hset) rfl rfl rfl
  | negate _ ih =>
    rw [Phrase.expr] at htyped
    cases htyped with | negate hoperand =>
    exact .of_readsBack (ih hoperand).negate rfl rfl rfl
  | number _ _ _ => exact .of_primary (readsPrimary_number _ _) rfl rfl rfl
  | string _ => exact .of_primary (readsPrimary_string _) rfl rfl rfl

/-! ## A minus before a union -/

/-- Without parentheses a minus takes the first operand of a union alone, so that what is
united is no node-set. -/
theorem exists_refused_minus {l r : Phrase} (hl : ReadsBack scope l) (hr : ReadsBack scope r)
    (hunion : l.isUnion = false) {limit : Nat} (hlimit : limit < 7)
    (hts : Begins ts (.minus :: (Phrase.binary .union l r).words 7) rest)
    (hflagged : Lexeme.Flagged ts) (hrest : endsOperand (current rest) = true)
    (hdepth : depth + 2 + (Phrase.binary .union l r).peak ≤ maxDepth) :
    ∃ offset, readOperands scope limit ts depth = .error ⟨.unionOfOthers, offset⟩ := by
  have hbinds : decide (6 < l.strength) = decide (7 < l.strength) := by
    have hne := Phrase.strength_of_isUnion hunion
    exact decide_eq_decide.2 (by omega)
  have hwords : Word.minus :: (Phrase.binary .union l r).words 7 = (Phrase.negate l).words 7
      ++ BinaryOp.union.word :: Word.grouped (7 < r.strength) (r.words 7) := by
    rw [Phrase.words, Phrase.words]
    change Word.minus :: (Word.grouped (6 < l.strength) (l.words 7) ++ _) = _
    rw [hbinds]
    rfl
  have hpeakl : Phrase.groupedPeak (7 < l.strength) l.peak ≤ (Phrase.binary .union l r).peak := by
    rw [Phrase.peak, ← hbinds]
    exact Nat.le_max_left _ _
  have hpeakr : 1 + Phrase.groupedPeak (7 < r.strength) r.peak
      ≤ (Phrase.binary .union l r).peak := by
    rw [Phrase.peak]
    exact Nat.le_trans (Nat.add_le_add_right (Nat.le_add_left 1 _) _) (Nat.le_max_right _ _)
  rw [hwords] at hts
  obtain ⟨mid, hleft, hmid⟩ := hts.exists_append
  have hflagged' := hleft.flagged hflagged
  obtain ⟨t, more, rfl, ht, hright⟩ := hmid.exists_cons
  have hop : binaryOp? t.token = some .union := ht ▸ BinaryOp.union.binaryOp?_word
  have hends : endsOperand (current (t :: more)) = true := by
    rw [show current (t :: more) = _ from ht]
    rfl
  have hdepth' : depth ≤ maxDepth := by omega
  have hoperand := hl.minus hleft hflagged hends hdepth'
  rw [Phrase.peak] at hoperand
  have hunite : Reads (bare (parseBinary scope limit (.negate l.expr) (t :: more) (depth + 1)))
      (depth + 2 + Phrase.groupedPeak (7 < r.strength) r.peak) (fault rest .unionOfOthers) := by
    have hothers : (BinaryOp.union = .union &&
        ((Expr.negate l.expr).type != .nodeSet || r.expr.type != .nodeSet)) = true := rfl
    rw [bare_parseBinary_op hop hlimit]
    refine ((Reads.descend more (depth + 1)).bind fun hle => ?_).of_top_eq
      (Nat.max_eq_right (Nat.le_add_right _ _))
    exact (hr.upTo hright hflagged'.2 hrest (fun op _ => precedence_le op) hle).bind_eq
      (if_pos hothers)
  exact ⟨place rest, (hoperand.bind fun _ => hunite).within (by omega)⟩

/-- What is united in a union is no matter: it is refused at the first `|`. -/
theorem exists_refused {l r : Phrase} {rest : List Lexeme} (hl : l.Spellable)
    (htyped : l.expr.Typed scope) (hr : ReadsBack scope r) {limit : Nat} (hlimit : limit < 7)
    (hts : Begins ts (.minus :: (Phrase.binary .union l r).words 7) rest)
    (hflagged : Lexeme.Flagged ts) (hrest : endsOperand (current rest) = true)
    (hdepth : depth + 2 + (Phrase.binary .union l r).peak ≤ maxDepth) :
    ∃ offset, readOperands scope limit ts depth = .error ⟨.unionOfOthers, offset⟩ := by
  cases hunion : l.isUnion with
  | false =>
    exact exists_refused_minus (readsInPlace_of_spellable hl htyped).toReadsBack hr hunion hlimit
      hts hflagged hrest hdepth
  | true =>
    obtain ⟨l₁, l₂, rfl⟩ := Phrase.exists_operands_of_isUnion hunion
    cases hl with | binary _ hl₁ hl₂ =>
    rw [Phrase.expr] at htyped
    cases htyped with | binary _ htyped₁ htyped₂ _ =>
    have hwords : Word.minus :: (Phrase.binary .union (.binary .union l₁ l₂) r).words 7
        = (.minus :: (Phrase.binary .union l₁ l₂).words 7)
          ++ BinaryOp.union.word :: Word.grouped (7 < r.strength) (r.words 7) := rfl
    rw [hwords] at hts
    obtain ⟨mid, hunited, hright⟩ := hts.exists_append
    have hends : endsOperand (current mid) = true := by
      rw [hright.current_eq]
      rfl
    have hpeak : (Phrase.binary .union l₁ l₂).peak
        ≤ (Phrase.binary .union (.binary .union l₁ l₂) r).peak := by
      rw [Phrase.peak.eq_def (.binary .union _ r)]
      exact Nat.le_max_left _ _
    exact exists_refused hl₁ htyped₁ (readsInPlace_of_spellable hl₂ htyped₂).toReadsBack hlimit
      hunited hflagged hends (by omega)
termination_by sizeOf l

end Grammar

/-! ## Texts -/

open Grammar (bare maxDepth)

theorem Expr.parse_eq {scope : Grammar.Scope} {text : String} :
    Expr.parse scope text = bare (Grammar.parseExpression scope 0 (Lexeme.ofText text) 0) >>=
      fun (e, rest, _) =>
        if Grammar.current rest = .eof then .ok e else Grammar.fault rest .trailingTokens := by
  rw [Expr.parse]
  cases Grammar.parseExpression scope 0 (Lexeme.ofText text) 0 <;> rfl

/-- The tokens of a text are those of its words, and one for its end. -/
theorem Written.exists_begins {ws : List Word} {text : String} (h : Written ws text.toList)
    (hws : ∀ w ∈ ws, w.Valid) :
    ∃ rest, Grammar.Begins (Lexeme.ofText text) ws rest ∧ Grammar.current rest = .eof ∧
      Lexeme.Flagged (Lexeme.ofText text) := by
  obtain ⟨htokens, hflagged⟩ := h.scanAll hws 0
  obtain ⟨us, rest, hall, hus, hrest⟩ := List.map_eq_append_iff.1 htokens
  obtain ⟨t, more, rfl, ht, -⟩ := List.map_eq_cons_iff.1 hrest
  exact ⟨t :: more, ⟨us, hall, hus⟩, ht, hflagged⟩

/-- A text of a phrase is read as its tree. -/
theorem Phrase.reads_parse {scope : Grammar.Scope} {p : Phrase} (hspell : p.Spellable)
    (htyped : p.expr.Typed scope) {text : String} (htext : Written (p.words 7) text.toList) :
    Grammar.Reads (Expr.parse scope text) p.levels (.ok p.expr) := by
  obtain ⟨rest, hbegins, heof, hflagged⟩ := htext.exists_begins hspell.valid_words
  have hclose : Grammar.closes (Grammar.current rest) = true := by
    rw [heof]
    rfl
  have hread := (Grammar.readsInPlace_of_spellable hspell htyped).whole hbegins hflagged hclose
    (Nat.zero_le maxDepth)
  rw [Expr.parse_eq, levels]
  rw [Nat.zero_add] at hread
  exact hread.bind_eq (if_pos heof)

/-- A text of a union after a minus, without parentheses, is refused. -/
theorem Phrase.exists_refused_parse {scope : Grammar.Scope} {l r : Phrase} (hl : l.Spellable)
    (hr : r.Spellable) (htypedl : l.expr.Typed scope) (htypedr : r.expr.Typed scope)
    (hdepth : (Phrase.negate (.binary .union l r)).levels ≤ maxDepth) {text : String}
    (htext : Written (.minus :: (Phrase.binary .union l r).words 7) text.toList) :
    ∃ offset, Expr.parse scope text = .error ⟨.unionOfOthers, offset⟩ := by
  have hvalid : ∀ w ∈ Word.minus :: (Phrase.binary .union l r).words 7, w.Valid :=
    List.forall_mem_cons.2 ⟨Word.valid_minus, (Spellable.binary .union hl hr).valid_words⟩
  obtain ⟨rest, hbegins, heof, hflagged⟩ := htext.exists_begins hvalid
  have hends : Grammar.endsOperand (Grammar.current rest) = true := by
    rw [heof]
    rfl
  have hlevels : 1 + 2 + (Phrase.binary .union l r).peak ≤ maxDepth := by
    rw [levels, peak] at hdepth
    change 1 + (2 + (1 + (Phrase.binary .union l r).peak)) ≤ maxDepth at hdepth
    omega
  have hlimit : 0 < 7 := Nat.succ_pos 6
  obtain ⟨offset, hrefused⟩ := Grammar.exists_refused hl htypedl
    (Grammar.readsInPlace_of_spellable hr htypedr).toReadsBack hlimit hbegins hflagged hends
    hlevels
  refine ⟨offset, ?_⟩
  have hread : bare (Grammar.parseExpression scope 0 (Lexeme.ofText text) 0)
      = .error ⟨.unionOfOthers, offset⟩ := by
    rw [Grammar.bare_parseExpression]
    change Grammar.setBack 0 (Grammar.readOperands scope 0 (Lexeme.ofText text) 1) = _
    rw [hrefused]
    rfl
  rw [Expr.parse_eq, hread]
  rfl

/-- Every text of a phrase that can be written, and whose parts fit together, is read as its
tree, up to the greatest number of levels, and refused beyond it.  The operators bind in their
order, `|` the tightest, and group from the left.  A minus does not bind looser than `|`, as it
does in XPath 1.0, but tighter.  So a union that is negated needs parentheses, and is refused
without them; where there is none, the text is the one of XPath 1.0. -/
theorem Phrase.parse_written {scope : Grammar.Scope} {p : Phrase} (hspell : p.Spellable)
    (htyped : p.expr.Typed scope) :
    (∃ text : String, Written (p.words 7) text.toList) ∧
      (∀ text : String, Written (p.words 7) text.toList →
        (p.levels ≤ maxDepth → Expr.parse scope text = .ok p.expr) ∧
          (maxDepth < p.levels →
            ∃ offset, Expr.parse scope text = .error ⟨.tooDeep, offset⟩)) ∧
      (p.negatesUnion = false → p.words 6 = p.words 7) ∧
      ∀ operand, p = .negate operand → operand.isUnion = true → operand.negatesUnion = false →
        p.levels ≤ maxDepth → ∀ text : String, Written (p.words 6) text.toList →
          ∃ offset, Expr.parse scope text = .error ⟨.unionOfOthers, offset⟩ := by
  refine ⟨?_, ?_, hspell.words_congr, ?_⟩
  · refine ⟨String.ofList (Word.joined (p.words 7)), ?_⟩
    rw [String.toList_ofList]
    exact Word.written_joined _
  · intro text htext
    have hread := reads_parse hspell htyped htext
    exact ⟨hread.within, hread.beyond⟩
  · rintro operand rfl hunion hplain hdepth text htext
    obtain ⟨l, r, rfl⟩ := exists_operands_of_isUnion hunion
    cases hspell with | negate hspell =>
    cases htyped with | negate htyped =>
    have hwords : (Phrase.negate (.binary .union l r)).words 6
        = .minus :: (Phrase.binary .union l r).words 7 := by
      rw [← hspell.words_congr hplain]
      rfl
    rw [hwords] at htext
    rw [expr] at htyped
    cases hspell with | binary _ hl hr =>
    cases htyped with | binary _ htypedl htypedr _ =>
    exact exists_refused_parse hl hr htypedl htypedr hdepth htext

/-- The negated union of two kinds of children. -/
def Phrase.negatedUnion : Phrase :=
  .negate (.binary .union (.step .child (.name "a") []) (.step .child (.name "b") []))

theorem Phrase.parse_negatedUnion :
    negatedUnion.Spellable ∧ negatedUnion.expr.Typed none ∧ negatedUnion.levels ≤ maxDepth ∧
      Expr.parse none "- ( child :: a | child :: b ) " = .ok negatedUnion.expr ∧
      ∃ offset, Expr.parse none "- child :: a | child :: b " = .error ⟨.unionOfOthers, offset⟩ := by
  have hname : ∀ n, IsPlainName n.toList → Spellable (.step .child (.name n) []) :=
    fun n h => .step .child (.inl h) nofun
  have hspell : negatedUnion.Spellable :=
    .negate (.binary .union (hname "a" (by decide)) (hname "b" (by decide)))
  have htyped : negatedUnion.expr.Typed none :=
    .negate (.binary .union (.step .child _ nofun) (.step .child _ nofun) fun _ => ⟨rfl, rfl⟩)
  have hlevels : negatedUnion.levels ≤ maxDepth := by decide
  have hgrouped : Written (negatedUnion.words 7) "- ( child :: a | child :: b ) ".toList := by
    have htext : "- ( child :: a | child :: b ) ".toList = Word.joined (negatedUnion.words 7) := by
      decide
    exact htext ▸ Word.written_joined _
  have hbare : Written (negatedUnion.words 6) "- child :: a | child :: b ".toList := by
    have htext : "- child :: a | child :: b ".toList = Word.joined (negatedUnion.words 6) := by
      decide
    exact htext ▸ Word.written_joined _
  obtain ⟨-, hread, -, hrefused⟩ := parse_written hspell htyped
  exact ⟨hspell, htyped, hlevels, (hread _ hgrouped).1 hlevels,
    hrefused _ rfl rfl rfl hlevels _ hbare⟩

end XmlTree
