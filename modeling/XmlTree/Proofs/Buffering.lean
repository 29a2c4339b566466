/-
  Proofs/Buffering.lean --- gathering output into chunks changes nothing but where it is cut.

  WHAT THIS FILE IS FOR.  A sink is given the encoded pieces in order, in chunks that are not
  empty.  The chunks are settled by the pieces and by the capacity before any of them is
  handed over, so two sinks are given the same ones for as long as neither refuses any.

  WHAT A CUT CANNOT CHANGE.  Encoding a text encodes its characters one by one, so the
  chunks put together are the same wherever text was cut: by the capacity, by raw bytes that
  force a chunk to be handed over, or by how text was split over the pieces.  A character
  that is written by itself is a text of one character.

  FAILING SINKS.  What a sink is asked is kept apart from what it answers: the chunks that it
  is asked to take end with the first one that it refuses, and that refusal is the answer.
-/
import XmlTree.Proofs.Utf8
import XmlTree.Save.Piece

set_option autoImplicit false

namespace XmlTree

/-! ## What is written -/

theorem Encoding.encode_append (e : Encoding) (s t : String) :
    e.encode (s ++ t) = e.encode s ++ e.encode t := by
  rw [encode, String.toList_append, List.flatMap_append]
  rfl

namespace Piece

/-- The bytes that a piece puts into the output. -/
def bytes (e : Encoding) : Piece → Bytes
  | text s => e.encode s
  | raw bytes => bytes

/-- What a piece is made of, however it was split: characters, and bytes that are not encoded. -/
def units : Piece → List (Char ⊕ UInt8)
  | text s => s.toList.map .inl
  | raw bytes => bytes.map .inr

/-- The bytes of pieces are the bytes of what they are made of. -/
theorem flatMap_bytes (e : Encoding) (pieces : List Piece) :
    pieces.flatMap (bytes e) =
      (pieces.flatMap units).flatMap (Sum.elim e.encodeChar fun b => [b]) := by
  have hpiece : ∀ p : Piece, p.bytes e = p.units.flatMap (Sum.elim e.encodeChar fun b => [b]) := by
    intro p
    cases p with
    | text s => rw [units, List.flatMap_map]; rfl
    | raw bytes => rw [units, List.flatMap_map]; exact (List.flatMap_singleton' bytes).symm
  rw [List.flatMap_assoc]
  exact List.flatMap_congr fun p _ => hpiece p

end Piece

/-! ## What a sink is asked -/

section

variable {σ : Type}

/-- Hands chunks to a sink one after the other until it refuses one: the chunks that it is asked
to take, its refusal if there is one, and the state that it is left in. -/
def Sink.offer (out : Sink σ) (sink : σ) : List Bytes → List Bytes × Except SinkFailure Unit × σ
  | [] => ([], .ok (), sink)
  | chunk :: more =>
    match out.write sink chunk with
    | .ok sink => (chunk :: (out.offer sink more).1, (out.offer sink more).2)
    | .error failure => ([chunk], .error failure, sink)

/-- A sink takes all chunks, or it takes those before one that it refuses and is asked nothing
after that. -/
theorem Sink.offer_cases (out : Sink σ) (sink : σ) (chunks : List Bytes) :
    (∃ held, chunks.foldlM out.write sink = .ok held ∧
      out.offer sink chunks = (chunks, .ok (), held)) ∨
    ∃ before refused after held failure, chunks = before ++ refused :: after ∧
      before.foldlM out.write sink = .ok held ∧ out.write held refused = .error failure ∧
      out.offer sink chunks = (before ++ [refused], .error failure, held) := by
  induction chunks generalizing sink with
  | nil => exact .inl ⟨sink, rfl, rfl⟩
  | cons chunk more ih =>
    cases hwrite : out.write sink chunk with
    | error failure =>
      refine .inr ⟨[], chunk, more, sink, failure, rfl, rfl, hwrite, ?_⟩
      rw [Sink.offer, hwrite]
      rfl
    | ok next =>
      have htakes : ∀ rest, (chunk :: rest).foldlM out.write sink = rest.foldlM out.write next := by
        intro rest
        rw [List.foldlM_cons, hwrite]
        rfl
      have hoffer : out.offer sink (chunk :: more) =
          (chunk :: (out.offer next more).1, (out.offer next more).2) := by
        rw [Sink.offer, hwrite]
      obtain ⟨held, hall, hresult⟩ |
          ⟨before, refused, after, held, failure, rfl, hbefore, hrefused, hresult⟩ := ih next
      · exact .inl ⟨held, by rw [htakes, hall], by rw [hoffer, hresult]⟩
      · refine .inr ⟨chunk :: before, refused, after, held, failure, rfl, ?_, hrefused, ?_⟩
        · rw [htakes, hbefore]
        · rw [hoffer, hresult]
          rfl

end

namespace OutputBuffer

/-! ## Where output is cut -/

/-- A chunk, unless it is empty. -/
def handed (chunk : Bytes) : List Bytes := if chunk.isEmpty then [] else [chunk]

theorem flatten_handed (chunk : Bytes) : (handed chunk).flatten = chunk := by
  cases chunk <;> simp [handed]

theorem ne_nil_of_mem_handed {chunk c : Bytes} (h : c ∈ handed chunk) : c ≠ [] := by
  cases chunk with
  | nil => simp [handed] at h
  | cons b bs =>
    obtain rfl : c = b :: bs := by simpa [handed] using h
    exact List.cons_ne_nil _ _

/-- The chunks that pieces are cut into behind the text `pending`. -/
def cuts (e : Encoding) (capacity : Nat) (pending : String) : List Piece → List Bytes
  | [] => handed (e.encode pending)
  | .text s :: pieces =>
    if capacity ≤ (pending ++ s).utf8ByteSize then
      handed (e.encode (pending ++ s)) ++ cuts e capacity "" pieces
    else
      cuts e capacity (pending ++ s) pieces
  | .raw bytes :: pieces =>
    handed (e.encode pending) ++ (handed bytes ++ cuts e capacity "" pieces)

/-- The chunks that a new buffer cuts pieces into. -/
def chunks (e : Encoding) (capacity : Nat) (pieces : List Piece) : List Bytes :=
  cuts e.forOutput (max capacity 1) "" pieces

theorem ne_nil_of_mem_cuts {e : Encoding} {capacity : Nat} {pieces : List Piece}
    {pending : String} {c : Bytes} (h : c ∈ cuts e capacity pending pieces) : c ≠ [] := by
  induction pieces generalizing pending with
  | nil => exact ne_nil_of_mem_handed h
  | cons p pieces ih =>
    cases p with
    | text s =>
      rw [cuts] at h
      split at h
      · obtain h | h := List.mem_append.1 h
        · exact ne_nil_of_mem_handed h
        · exact ih h
      · exact ih h
    | raw bytes =>
      rw [cuts, List.mem_append, List.mem_append] at h
      obtain h | h | h := h
      · exact ne_nil_of_mem_handed h
      · exact ne_nil_of_mem_handed h
      · exact ih h

/-- No byte is lost, added or moved by cutting. -/
theorem flatten_cuts (e : Encoding) (capacity : Nat) (pending : String) (pieces : List Piece) :
    (cuts e capacity pending pieces).flatten =
      e.encode pending ++ pieces.flatMap (Piece.bytes e) := by
  have hempty : e.encode "" = [] := rfl
  induction pieces generalizing pending with
  | nil => rw [cuts, flatten_handed, List.flatMap_nil, List.append_nil]
  | cons p pieces ih =>
    rw [List.flatMap_cons]
    cases p with
    | text s =>
      rw [cuts, Piece.bytes, ← List.append_assoc, ← e.encode_append]
      split
      · rw [List.flatten_append, flatten_handed, ih, hempty, List.nil_append]
      · exact ih _
    | raw bytes =>
      rw [cuts, List.flatten_append, List.flatten_append, flatten_handed, flatten_handed, ih,
        hempty, List.nil_append, Piece.bytes]

/-- The bytes of a piece are the same in the encoding that an open one stands for. -/
theorem bytes_forOutput (e : Encoding) : Piece.bytes e.forOutput = Piece.bytes e := by
  have hchar : e.forOutput.encodeChar = e.encodeChar := by cases e <;> rfl
  funext p
  cases p with
  | text s => rw [Piece.bytes, Piece.bytes, Encoding.encode, Encoding.encode, hchar]
  | raw bytes => rfl

theorem flatten_chunks (e : Encoding) (capacity : Nat) (pieces : List Piece) :
    (chunks e capacity pieces).flatten = pieces.flatMap (Piece.bytes e) := by
  rw [chunks, flatten_cuts, bytes_forOutput]
  rfl

/-! ## Writing hands over those chunks -/

variable {σ : Type} {b : OutputBuffer σ}

/-- The chunks that the sink is asked to take where `chunk` is handed on. -/
def asked (b : OutputBuffer σ) (chunk : Bytes) : List Bytes :=
  if b.failure.isSome || chunk.isEmpty then [] else [chunk]

/-- The buffer after its sink was asked to take a chunk. -/
def ask (out : Sink σ) (b : OutputBuffer σ) (chunk : Bytes) : OutputBuffer σ :=
  match out.write b.sink chunk with
  | .ok sink => { b with sink }
  | .error failure => { b with failure := some failure }

/-- Handing a chunk on is asking the sink what is asked, and nothing else. -/
theorem emit_eq_foldl_ask (out : Sink σ) (b : OutputBuffer σ) (chunk : Bytes) :
    b.emit out chunk = (b.asked chunk).foldl (ask out) b := by
  unfold emit asked
  split <;> rfl

/-- Draining hands on what is pending, also when that is nothing. -/
theorem drain_eq_emit (out : Sink σ) (b : OutputBuffer σ) :
    b.drain out = { b with pending := "" }.emit out (b.encoding.encode b.pending) := by
  unfold drain
  split
  · rename_i hempty
    have hpending : b.pending = "" := String.isEmpty_iff.1 hempty
    obtain ⟨sink, encoding, capacity, pending, failure⟩ := b
    subst hpending
    unfold emit
    rw [if_pos (by simp [Encoding.encode])]
  · rfl

/-- The chunks that the sink is asked to take while one piece is written. -/
def writeAsked (out : Sink σ) (b : OutputBuffer σ) : Piece → List Bytes
  | .text s =>
    if b.capacity ≤ (b.pending ++ s).utf8ByteSize then b.asked (b.encoding.encode (b.pending ++ s))
    else []
  | .raw bytes => b.asked (b.encoding.encode b.pending) ++ (b.drain out).asked bytes

/-- The text that is pending after one piece. -/
def leftOver (b : OutputBuffer σ) : Piece → String
  | .text s => if b.capacity ≤ (b.pending ++ s).utf8ByteSize then "" else b.pending ++ s
  | .raw _ => ""

/-- Writing a piece is asking the sink what is asked, and nothing else. -/
theorem write_eq_foldl_ask (out : Sink σ) (b : OutputBuffer σ) (p : Piece) :
    b.write out p = (b.writeAsked out p).foldl (ask out) { b with pending := b.leftOver p } := by
  cases p with
  | text s =>
    simp only [write, writeAsked, leftOver]
    split
    · rw [drain_eq_emit, emit_eq_foldl_ask]
      rfl
    · rfl
  | raw bytes =>
    rw [write, emit_eq_foldl_ask, writeAsked, List.foldl_append]
    congr 1
    rw [drain_eq_emit, emit_eq_foldl_ask]
    rfl

/-- The chunks that the sink is asked to take while pieces are written and output is finished. -/
def allAsked (out : Sink σ) (b : OutputBuffer σ) : List Piece → List Bytes
  | [] => b.asked (b.encoding.encode b.pending)
  | p :: pieces => b.writeAsked out p ++ (b.write out p).allAsked out pieces

/-- What the sink is asked from here on, and what comes of it. -/
def outcome (out : Sink σ) (b : OutputBuffer σ) (pieces : List Piece) :
    List Bytes × Except SinkFailure Unit × σ :=
  (b.allAsked out pieces, b.writeAll out pieces)

theorem asked_failed {failure : SinkFailure} (h : b.failure = some failure) (chunk : Bytes) :
    b.asked chunk = [] := by
  rw [asked, h]
  rfl

theorem drain_failed (out : Sink σ) {failure : SinkFailure} (h : b.failure = some failure) :
    b.drain out = { b with pending := "" } := by
  rw [drain_eq_emit, emit, h]
  rfl

theorem writeAsked_failed (out : Sink σ) {failure : SinkFailure} (h : b.failure = some failure)
    (p : Piece) : b.writeAsked out p = [] := by
  cases p with
  | text s => rw [writeAsked, asked_failed h, ite_self]
  | raw bytes =>
    rw [writeAsked, asked_failed h, drain_failed out h]
    exact asked_failed (b := { b with pending := "" }) h bytes

/-- After a failure the sink is asked nothing, and the failure is what comes of it. -/
theorem outcome_failed (out : Sink σ) {failure : SinkFailure} (h : b.failure = some failure)
    (pieces : List Piece) : b.outcome out pieces = ([], .error failure, b.sink) := by
  induction pieces generalizing b with
  | nil =>
    have hfinish : b.writeAll out [] = (.error failure, b.sink) := by
      rw [writeAll, List.foldl_nil, finish, drain_failed out h, h]
    rw [outcome, allAsked, asked_failed h, hfinish]
  | cons p pieces ih =>
    have hwrite : b.write out p = { b with pending := b.leftOver p } := by
      rw [write_eq_foldl_ask, writeAsked_failed out h]
      rfl
    have hrest : (b.write out p).outcome out pieces = ([], .error failure, b.sink) := by
      rw [hwrite]
      exact ih (b := { b with pending := b.leftOver p }) h
    obtain ⟨hmore, hresult⟩ := Prod.mk.inj hrest
    rw [outcome, allAsked, writeAsked_failed out h, hmore]
    exact congrArg (Prod.mk _) hresult

/-- Handing on a chunk offers it to the sink, before what comes after it. -/
theorem offer_handed (out : Sink σ) (hlive : b.failure = none) (chunk : Bytes) (more : List Bytes)
    (after : OutputBuffer σ → List Bytes × Except SinkFailure Unit × σ)
    (htaken : ∀ sink, after { b with sink } = out.offer sink more)
    (hrefused : ∀ failure, after { b with failure := some failure } =
      ([], .error failure, b.sink)) :
    (b.asked chunk ++ (after (b.emit out chunk)).1, (after (b.emit out chunk)).2) =
      out.offer b.sink (handed chunk ++ more) := by
  cases chunk with
  | nil =>
    have hemit : b.emit out [] = { b with sink := b.sink } := by
      rw [emit, hlive]
      rfl
    rw [hemit, htaken, asked, hlive]
    rfl
  | cons byte bytes =>
    have hasked : b.asked (byte :: bytes) = [byte :: bytes] := by
      rw [asked, hlive]
      rfl
    have hhanded : handed (byte :: bytes) ++ more = (byte :: bytes) :: more := rfl
    rw [emit_eq_foldl_ask, hasked, hhanded, Sink.offer, List.foldl_cons, List.foldl_nil, ask]
    cases out.write b.sink (byte :: bytes) with
    | ok sink =>
      simp only [htaken]
      rfl
    | error failure =>
      simp only [hrefused]
      rfl

/-- A buffer that has not failed offers the sink the chunks that the pieces are cut into. -/
theorem outcome_live (out : Sink σ) (hlive : b.failure = none) (pieces : List Piece) :
    b.outcome out pieces = out.offer b.sink (cuts b.encoding b.capacity b.pending pieces) := by
  induction pieces generalizing b with
  | nil =>
    have hlast := offer_handed (b := { b with pending := "" }) out hlive
      (b.encoding.encode b.pending) []
      (fun b => ([], b.failure.elim (.ok ()) .error, b.sink))
      (fun sink => by rw [hlive]; rfl) (fun _ => rfl)
    rw [List.append_nil, List.append_nil, ← drain_eq_emit] at hlast
    have hends : b.finish out =
        ((b.drain out).failure.elim (.ok ()) .error, (b.drain out).sink) := by
      simp only [finish]
      cases (b.drain out).failure with
      | none => rfl
      | some failure => rfl
    rw [outcome, writeAll, List.foldl_nil, hends]
    exact hlast
  | cons p pieces ih =>
    cases p with
    | text s =>
      rw [cuts, outcome, allAsked, writeAsked]
      split
      · rename_i hfull
        have hwrite : b.write out (.text s) =
            { b with pending := "" }.emit out (b.encoding.encode (b.pending ++ s)) := by
          simp only [write, if_pos hfull]
          exact drain_eq_emit out _
        rw [← offer_handed (b := { b with pending := "" }) out hlive
          _ _ (fun b => b.outcome out pieces)
          (fun sink => ih (b := { b with pending := "", sink }) hlive)
          (fun failure => outcome_failed out rfl pieces), ← hwrite]
        rfl
      · rename_i hroom
        have hwrite : b.write out (.text s) = { b with pending := b.pending ++ s } := by
          simp only [write, if_neg hroom]
        have hrest : (b.write out (.text s)).outcome out pieces =
            out.offer b.sink (cuts b.encoding b.capacity (b.pending ++ s) pieces) := by
          rw [hwrite]
          exact ih (b := { b with pending := b.pending ++ s }) hlive
        exact hrest
    | raw bytes =>
      -- what is pending is handed on first, then the bytes, then what comes after them
      have hbytes := fun sink => offer_handed (b := { b with pending := "", sink }) out hlive bytes
        (cuts b.encoding b.capacity "" pieces) (fun b => b.outcome out pieces)
        (fun sink' => ih (b := { b with pending := "", sink := sink' }) hlive)
        (fun failure => outcome_failed out rfl pieces)
      have hpending := offer_handed (b := { b with pending := "" }) out hlive
        (b.encoding.encode b.pending) _
        (fun b => (b.asked bytes ++ ((b.emit out bytes).outcome out pieces).1,
          ((b.emit out bytes).outcome out pieces).2))
        hbytes fun failure =>
          outcome_failed (b := { b with pending := "", failure := some failure }) out rfl pieces
      rw [cuts, ← hpending, ← drain_eq_emit, outcome, allAsked, writeAsked, List.append_assoc]
      rfl

/-! ## Buffering cannot be told from the output -/

/-- Pieces that are written and finished are offered to the sink in the chunks that they are cut
into: none is empty, and together they are the bytes of the pieces, in order, whatever the
capacity is and however text is split over pieces.  A sink that takes every chunk is given all of
them and the answer is success.  Otherwise the chunks before the first one that is refused are
taken, nothing is asked of the sink after that one, and its refusal is the answer. -/
theorem writeAll_transparent (e : Encoding) (capacity : Nat) (pieces : List Piece) :
    (∀ chunk ∈ chunks e capacity pieces, chunk ≠ []) ∧
    (chunks e capacity pieces).flatten = pieces.flatMap (Piece.bytes e) ∧
    (∀ capacity' pieces', pieces'.flatMap Piece.units = pieces.flatMap Piece.units →
      (chunks e capacity' pieces').flatten = (chunks e capacity pieces).flatten) ∧
    ∀ {σ : Type} (out : Sink σ) (start : σ),
      let b := new start e capacity
      (∃ held, (chunks e capacity pieces).foldlM out.write start = .ok held ∧
        b.allAsked out pieces = chunks e capacity pieces ∧
        b.writeAll out pieces = (.ok (), held)) ∨
      ∃ before refused after held failure,
        chunks e capacity pieces = before ++ refused :: after ∧
        before.foldlM out.write start = .ok held ∧ out.write held refused = .error failure ∧
        b.allAsked out pieces = before ++ [refused] ∧
        b.writeAll out pieces = (.error failure, held) := by
  refine ⟨fun chunk => ne_nil_of_mem_cuts, flatten_chunks e capacity pieces, ?_, ?_⟩
  · intro capacity' pieces' hunits
    rw [flatten_chunks, flatten_chunks, Piece.flatMap_bytes, Piece.flatMap_bytes, hunits]
  · intro σ out start
    have houtcome : (new start e capacity).outcome out pieces =
        out.offer start (chunks e capacity pieces) := outcome_live out rfl pieces
    obtain ⟨held, hall, hoffer⟩ |
        ⟨before, refused, after, held, failure, hchunks, hbefore, hrefused, hoffer⟩ :=
      out.offer_cases start (chunks e capacity pieces)
    · obtain ⟨hasked, hresult⟩ := Prod.mk.inj (houtcome.trans hoffer)
      exact .inl ⟨held, hall, hasked, hresult⟩
    · obtain ⟨hasked, hresult⟩ := Prod.mk.inj (houtcome.trans hoffer)
      exact .inr ⟨before, refused, after, held, failure, hchunks, hbefore, hrefused, hasked,
        hresult⟩

/-- Texts that are split in another way and cut by another capacity come to the same bytes, and a
sink with room for one chunk is asked to take two. -/
theorem writeAll_split :
    [Piece.text "é", .text "<", .raw [0xFF], .text "b"].flatMap Piece.units =
        [Piece.text "é<", .raw [0xFF], .text "b"].flatMap Piece.units ∧
      (chunks .utf16be 1 [.text "é", .text "<", .raw [0xFF], .text "b"]).flatten =
        (chunks .utf16be 3 [.text "é<", .raw [0xFF], .text "b"]).flatten ∧
      chunks .utf16be 3 [.text "é<", .raw [0xFF], .text "b"] =
        [[0x00, 0xE9, 0x00, 0x3C], [0xFF], [0x00, 0x62]] ∧
      (new [] .utf16be 3).allAsked (Sink.chunks (some 1))
        [.text "é<", .raw [0xFF], .text "b"] = [[0x00, 0xE9, 0x00, 0x3C], [0xFF]] := by
  obtain ⟨-, -, hsame, -⟩ :=
    writeAll_transparent .utf16be 3 [.text "é<", .raw [0xFF], .text "b"]
  have hunits : [Piece.text "é", .text "<", .raw [0xFF], .text "b"].flatMap Piece.units =
      [Piece.text "é<", .raw [0xFF], .text "b"].flatMap Piece.units := by decide +kernel
  have hchunks : chunks .utf16be 3 [.text "é<", .raw [0xFF], .text "b"] =
      [[0x00, 0xE9, 0x00, 0x3C], [0xFF], [0x00, 0x62]] := by decide +kernel
  refine ⟨hunits, hsame 1 _ hunits, hchunks, ?_⟩
  decide +kernel

end OutputBuffer

end XmlTree
