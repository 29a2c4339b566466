/-
  Proofs/Switches.lean --- switches that are not asked for.

  WHAT THIS FILE IS FOR.  The reader asks a set of switches only which kinds of nodes are wanted.
  All others are about what becomes of texts and values, and that is left to the builder.  So two
  sets that want the same nodes read every text in the same way, with the same faults.

  MORE SWITCHES.  Switches come in groups that have no member in common.  To add some that are
  not of a group changes nothing for those who ask about that group only.
-/
import XmlTree.Proofs.Thinning

set_option autoImplicit false

namespace XmlTree

namespace ParseOptions

variable {options more flag : ParseOptions} {i : Nat}

/-- A switch is in a union if it is in one of the two sets. -/
theorem contains_union (h : flag.bits.toNat = 2 ^ i) :
    (options.union more).contains flag = (options.contains flag || more.contains flag) := by
  rw [contains_flag h, contains_flag h, contains_flag h, union, UInt32.toNat_or, Nat.testBit_or]

/-- More switches change nothing about those of a group that has none of them. -/
theorem contains_union_apart {group : ParseOptions} (h : flag.bits.toNat = 2 ^ i)
    (hin : group.contains flag = true) (hmore : more.intersects group = false) :
    (options.union more).contains flag = options.contains flag := by
  have hnone : more.contains flag = false := by
    rw [contains_flag h] at hin ⊢
    rw [intersects, bne_eq_false_iff_eq, ← UInt32.toNat_inj, UInt32.toNat_and] at hmore
    have hbit := congrArg (Nat.testBit · i) hmore
    simpa [hin] using hbit
  rw [contains_union h, hnone, Bool.or_false]

theorem intersects_union_apart {group : ParseOptions} (hmore : more.intersects group = false) :
    (options.union more).intersects group = options.intersects group := by
  have hnone : (more.bits &&& group.bits).toNat = 0 :=
    congrArg UInt32.toNat (bne_eq_false_iff_eq.1 hmore)
  have hand : (options.bits ||| more.bits) &&& group.bits = options.bits &&& group.bits := by
    rw [← UInt32.toNat_inj, UInt32.toNat_and, UInt32.toNat_or, Nat.and_or_distrib_right,
      ← UInt32.toNat_and, ← UInt32.toNat_and, hnone, Nat.or_zero]
  rw [intersects, union, hand, intersects]

/-- A set of switches is told by its bits. -/
theorem eq_of_bits {a b : ParseOptions}
    (h : ∀ i : Nat, i < 32 → a.bits.toBitVec.getLsbD i = b.bits.toBitVec.getLsbD i) : a = b := by
  obtain ⟨a⟩ := a
  obtain ⟨b⟩ := b
  exact congrArg mk (UInt32.toBitVec_inj.1 (BitVec.eq_of_getLsbD_eq h))

theorem bit_union (a b : ParseOptions) (i : Nat) :
    (a.union b).bits.toBitVec.getLsbD i =
      (a.bits.toBitVec.getLsbD i || b.bits.toBitVec.getLsbD i) := by
  rw [union, UInt32.toBitVec_or, BitVec.getLsbD_or]

theorem bit_without (a b : ParseOptions) (hi : i < 32) :
    (a.without b).bits.toBitVec.getLsbD i =
      (a.bits.toBitVec.getLsbD i && !b.bits.toBitVec.getLsbD i) := by
  rw [without, UInt32.toBitVec_and, UInt32.toBitVec_not, BitVec.getLsbD_and, BitVec.getLsbD_not,
    decide_eq_true hi, Bool.true_and]

/-- Sets that have no member in common have no bit in common. -/
theorem bit_of_apart {a b : ParseOptions} (h : a.intersects b = false) (i : Nat) :
    (a.bits.toBitVec.getLsbD i && b.bits.toBitVec.getLsbD i) = false := by
  have hnone : a.bits.toBitVec &&& b.bits.toBitVec = 0 :=
    congrArg UInt32.toBitVec (bne_eq_false_iff_eq.1 h)
  rw [← BitVec.getLsbD_and, hnone]
  exact BitVec.getLsbD_zero

/-- What has no member in common with a group has none in common with a part of it. -/
theorem intersects_of_group {group part : ParseOptions} (hpart : group.contains part = true)
    (hother : group.intersects flag = false) : part.intersects flag = false := by
  have hall : group.bits &&& part.bits = part.bits := beq_iff_eq.1 hpart
  have hnone : group.bits &&& flag.bits = 0 := bne_eq_false_iff_eq.1 hother
  rw [intersects, bne_eq_false_iff_eq, ← hall, UInt32.and_assoc, UInt32.and_comm part.bits,
    ← UInt32.and_assoc, hnone, UInt32.zero_and]

/-- Switches that were set are cleared and set again. -/
theorem union_without (h : options.contains flag = true) :
    (options.without flag).union flag = options := by
  have hall : options.bits.toBitVec &&& flag.bits.toBitVec = flag.bits.toBitVec :=
    congrArg UInt32.toBitVec (beq_iff_eq.1 h)
  refine eq_of_bits fun i hi => ?_
  rw [bit_union, bit_without _ _ hi]
  have hbit := congrArg (BitVec.getLsbD · i) hall
  rw [← hbit, BitVec.getLsbD_and]
  cases options.bits.toBitVec.getLsbD i <;> cases flag.bits.toBitVec.getLsbD i <;> rfl

/-- There is nothing to clear. -/
theorem without_of_apart (h : options.intersects flag = false) :
    options.without flag = options := by
  refine eq_of_bits fun i hi => ?_
  have hbit := bit_of_apart h i
  rw [bit_without _ _ hi]
  revert hbit
  cases options.bits.toBitVec.getLsbD i <;> cases flag.bits.toBitVec.getLsbD i <;> decide

/-- Some switches are cleared and others are set, in either order. -/
theorem without_union (h : more.intersects flag = false) :
    (options.union more).without flag = (options.without flag).union more := by
  refine eq_of_bits fun i hi => ?_
  have hbit := bit_of_apart h i
  rw [bit_without _ _ hi, bit_union, bit_union, bit_without _ _ hi]
  revert hbit
  cases options.bits.toBitVec.getLsbD i <;> cases more.bits.toBitVec.getLsbD i <;>
    cases flag.bits.toBitVec.getLsbD i <;> decide

/-- Two sets of switches want the same kinds of nodes. -/
structure AgreeOnNodes (options options' : ParseOptions) : Prop where
  pi : options'.contains .pi = options.contains .pi
  comments : options'.contains .comments = options.contains .comments
  cdata : options'.contains .cdata = options.contains .cdata
  declaration : options'.contains .declaration = options.contains .declaration
  doctype : options'.contains .doctype = options.contains .doctype

/-- The switches for kinds of nodes. -/
def allNodeKinds : ParseOptions := nodeKinds.union declaration

theorem AgreeOnNodes.union (hmore : more.intersects allNodeKinds = false) :
    AgreeOnNodes options (options.union more) where
  pi := contains_union_apart (i := 0) rfl rfl hmore
  comments := contains_union_apart (i := 1) rfl rfl hmore
  cdata := contains_union_apart (i := 2) rfl rfl hmore
  declaration := contains_union_apart (i := 8) rfl rfl hmore
  doctype := contains_union_apart (i := 9) rfl rfl hmore

/-- The switches for what becomes of texts and values, but for where texts are stored. -/
def textSwitches : ParseOptions :=
  ((((((wsPcdata.union wsPcdataSingle).union escapes).union eol).union wconvAttribute).union
    wnormAttribute).union trimPcdata).union fragment

theorem AgreeOnTexts.union (hmore : more.intersects textSwitches = false) :
    AgreeOnTexts options (options.union more) where
  wsPcdata := contains_union_apart (i := 3) rfl rfl hmore
  escapes := contains_union_apart (i := 4) rfl rfl hmore
  eol := contains_union_apart (i := 5) rfl rfl hmore
  wconv := contains_union_apart (i := 6) rfl rfl hmore
  wnorm := contains_union_apart (i := 7) rfl rfl hmore
  trim := contains_union_apart (i := 11) rfl rfl hmore
  fragment := contains_union_apart (i := 12) rfl rfl hmore

end ParseOptions

namespace Reader

variable {mode mode' : ReaderMode}

theorem readQuestion_congr (hbelow : mode'.belowDocument = mode.belowDocument)
    (h : mode.options.AgreeOnNodes mode'.options) : readQuestion mode' = readQuestion mode := by
  funext names c
  unfold readQuestion
  cases c.name? with
  | none => rfl
  | some named =>
    cases hxml : eqIgnoringCase named.1.text "xml".toList <;>
      simp only [hxml, if_true, Bool.false_eq_true, if_false, h.declaration, h.pi, hbelow]

theorem readExclamation_congr (hbelow : mode'.belowDocument = mode.belowDocument)
    (h : mode.options.AgreeOnNodes mode'.options) :
    readExclamation mode' = readExclamation mode := by
  funext names c
  simp only [readExclamation, readDoctype, h.comments, h.cdata, h.doctype, hbelow]

theorem readMarkup_congr (hbelow : mode'.belowDocument = mode.belowDocument)
    (h : mode.options.AgreeOnNodes mode'.options) : readMarkup mode' = readMarkup mode := by
  funext names c
  simp only [readMarkup, readQuestion_congr hbelow h, readExclamation_congr hbelow h]

/-- A text is read construct by construct, so it is read in the same way. -/
theorem readAll_congr (hbelow : mode'.belowDocument = mode.belowDocument)
    (h : mode.options.AgreeOnNodes mode'.options) (names : List (List Char)) (c : Cursor) :
    readAll mode' names c = readAll mode names c := by
  induction names, c using readAll.induct mode with
  | case1 names c tag hend =>
    have hend : (c.takeWhile (· != '<')).2.rest = [] := hend
    rw [readAll_step, readAll_step mode]
    simp only [hend]
  | case2 names c tag d tail htag es names' next hread ih =>
    have htag : (c.takeWhile (· != '<')).2.rest = d :: tail := htag
    have hread : readMarkup mode names ((c.takeWhile (· != '<')).2.skip 1) = .next es names' next :=
      hread
    rw [readAll_step, readAll_step mode]
    simp only [htag, readMarkup_congr hbelow h, hread, ih]
  | case3 names c tag d tail htag es status offset hread =>
    have htag : (c.takeWhile (· != '<')).2.rest = d :: tail := htag
    have hread : readMarkup mode names ((c.takeWhile (· != '<')).2.skip 1) =
      .fault es status offset := hread
    rw [readAll_step, readAll_step mode]
    simp only [htag, readMarkup_congr hbelow h, hread]

end Reader

/-- Sets of switches that want the same nodes read every text in the same way. -/
theorem Transcript.ofText_congr {options options' : ParseOptions}
    (h : options.AgreeOnNodes options') (belowDocument : Bool) (text : List Char) :
    ofText ⟨options', belowDocument⟩ text = ofText ⟨options, belowDocument⟩ text :=
  @Reader.readAll_congr ⟨options, belowDocument⟩ ⟨options', belowDocument⟩ rfl h [] (.ofText text)

end XmlTree
