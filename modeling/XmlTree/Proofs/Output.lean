/-
  Proofs/Output.lean --- what is saved is the text of its pieces.

  WHAT THIS FILE IS FOR.  Pieces are gathered, cut into chunks, encoded and handed to a
  sink.  A chunk ends between two characters, so a sink that takes every chunk holds in the
  end what the pieces spell, wherever the chunks were cut.

  WHICH SINKS.  A sink is described by what it holds: text, or the bytes of a text.  All
  that is asked of it is that it takes the bytes of every text and holds the text behind
  what it held.
-/
import XmlTree.Save.Save
import XmlTree.Proofs.Utf8

set_option autoImplicit false

namespace XmlTree

/-- The characters of pieces of text. -/
def spelled (pieces : List String) : List Char := pieces.flatMap String.toList

@[simp] theorem spelled_nil : spelled [] = [] := rfl

@[simp] theorem spelled_cons (s : String) (pieces : List String) :
    spelled (s :: pieces) = s.toList ++ spelled pieces := rfl

@[simp] theorem spelled_append (a b : List String) : spelled (a ++ b) = spelled a ++ spelled b :=
  List.flatMap_append

/-- The sink takes every text that is encoded, and holds it behind what it held. -/
structure Sink.Keeps {σ : Type} (out : Sink σ) (e : Encoding) (holds : σ → List Char → Prop) :
    Prop where
  encoded : ∀ text, text ≠ "" → e.encode text ≠ []
  write : ∀ {held written}, holds held written → ∀ text, text ≠ "" →
    ∃ more, out.write held (e.encode text) = .ok more ∧ holds more (written ++ text.toList)

/-- A sink that keeps text holds it. -/
theorem Sink.keeps_text : Sink.text.Keeps .utf8 fun held written => held.toList = written where
  encoded _ hne := Encoding.encode_ne_nil _ hne
  write := by
    rintro held written rfl text -
    refine ⟨held ++ text, ?_, by rw [String.toList_append]⟩
    simp only [Sink.text, Encoding.selfDelimiting_utf8.decodeStrict_encode]

/-- A sink that keeps bytes holds those of the text, behind the bytes it has been given first. -/
theorem Sink.keeps_bytes (e : Encoding) (front : Bytes) :
    Sink.bytes.Keeps e fun held written => held = front ++ written.flatMap e.encodeChar where
  encoded _ hne := e.encode_ne_nil hne
  write := by
    rintro held written rfl text -
    exact ⟨_, rfl, by rw [List.flatMap_append, List.append_assoc, Encoding.encode]⟩

namespace OutputBuffer

variable {σ : Type} {out : Sink σ} {e : Encoding} {holds : σ → List Char → Prop}
  {b : OutputBuffer σ} {written : List Char}

/-- What the sink holds and what is still pending are together what was written, and nothing
failed. -/
structure Gathered (holds : σ → List Char → Prop) (e : Encoding) (b : OutputBuffer σ)
    (written : List Char) : Prop where
  encoding : b.encoding = e
  failure : b.failure = none
  text : ∃ handed, holds b.sink handed ∧ handed ++ b.pending.toList = written

theorem gathered_new {sink : σ} (hsink : holds sink []) (capacity : Nat) :
    Gathered holds e.forOutput (new sink e capacity) [] :=
  ⟨rfl, rfl, [], hsink, rfl⟩

/-- All that is pending is handed on. -/
theorem Gathered.drain (hkeeps : out.Keeps e holds) (h : Gathered holds e b written) :
    Gathered holds e (b.drain out) written ∧ (b.drain out).pending = "" := by
  obtain ⟨sink, encoding, capacity, pending, failure⟩ := b
  obtain ⟨rfl, rfl, handed, hhanded, rfl⟩ := h
  unfold OutputBuffer.drain
  split
  · rename_i hempty
    exact ⟨⟨rfl, rfl, handed, hhanded, rfl⟩, by simpa using hempty⟩
  · rename_i hpending
    have hne : pending ≠ "" := by simpa using hpending
    have hbytes : (encoding.encode pending).isEmpty = false := by
      simpa using hkeeps.encoded pending hne
    obtain ⟨more, hwrite, hmore⟩ := hkeeps.write hhanded pending hne
    simp only [emit, hbytes, hwrite, Option.isSome_none, Bool.or_self, Bool.false_eq_true, if_false]
    exact ⟨⟨rfl, rfl, _, hmore, List.append_nil _⟩, trivial⟩

theorem Gathered.write (hkeeps : out.Keeps e holds) (h : Gathered holds e b written) (s : String) :
    Gathered holds e (b.write out (.text s)) (written ++ s.toList) := by
  obtain ⟨handed, hhanded, htext⟩ := h.text
  have hmore : Gathered holds e { b with pending := b.pending ++ s } (written ++ s.toList) :=
    ⟨h.encoding, h.failure, handed, hhanded, by
      rw [← htext, String.toList_append, List.append_assoc]⟩
  unfold OutputBuffer.write
  simp only
  split
  · exact (hmore.drain hkeeps).1
  · exact hmore

theorem Gathered.foldl_write (hkeeps : out.Keeps e holds) (h : Gathered holds e b written)
    (pieces : List String) :
    Gathered holds e ((pieces.map Piece.text).foldl (OutputBuffer.write out) b)
      (written ++ spelled pieces) := by
  induction pieces generalizing b written with
  | nil => simpa using h
  | cons s pieces ih => simpa using ih (h.write hkeeps s)

/-- Pieces that are written end up in the sink, and no failure is reported. -/
theorem writeAll_text (hkeeps : out.Keeps e.forOutput holds) {sink : σ} (hsink : holds sink [])
    (capacity : Nat) (pieces : List String) :
    ∃ held, (new sink e capacity).writeAll out (pieces.map Piece.text) = (.ok (), held) ∧
      holds held (spelled pieces) := by
  obtain ⟨hdone, hpending⟩ :=
    ((gathered_new hsink capacity).foldl_write hkeeps pieces).drain hkeeps
  obtain ⟨handed, hhanded, htext⟩ := hdone.text
  rw [hpending, String.toList_empty, List.append_nil, List.nil_append] at htext
  subst htext
  refine ⟨_, ?_, hhanded⟩
  simp only [writeAll, finish, hdone.failure]

/-- Bytes that are written first are what the sink holds before any text. -/
theorem write_raw_new (e : Encoding) (capacity : Nat) (front : Bytes) :
    (new [] e capacity).write Sink.bytes (.raw front) = new front e capacity := by
  cases front <;> rfl

end OutputBuffer

/-- The characters of a piece of output; bytes that are not encoded are none. -/
def Piece.chars : Piece → List Char
  | .text s => s.toList
  | .raw _ => []

theorem Piece.flatMap_chars_text (pieces : List String) :
    (pieces.map Piece.text).flatMap Piece.chars = spelled pieces :=
  List.flatMap_map Piece.text Piece.chars pieces

namespace Document

variable {σ : Type} {out : Sink σ} {e : Encoding} {holds : σ → List Char → Prop}

/-- A document that is saved with no mark and no declaration added is what the pieces of its
tree spell. -/
theorem save_eq (hkeeps : out.Keeps e.forOutput holds) {sink : σ} (hsink : holds sink [])
    (doc : Document) (indent : String) (options : FormatOptions)
    (hmark : options.contains .writeBom = false)
    (hdeclaration : options.contains .noDeclaration = true) :
    ∃ held, doc.save out sink indent options e = (.ok (), held) ∧
      holds held (spelled ((doc.tree doc.root).markupPieces (.ofOptions indent options) 0)) := by
  have hpieces : doc.pieces indent options e.forOutput =
      ((doc.tree doc.root).markupPieces (.ofOptions indent options) 0).map Piece.text := by
    simp [pieces, hmark, hdeclaration]
  rw [save, hpieces]
  exact OutputBuffer.writeAll_text hkeeps hsink _ _

theorem saveString_eq (doc : Document) (indent : String) (options : FormatOptions)
    (hmark : options.contains .writeBom = false)
    (hdeclaration : options.contains .noDeclaration = true) :
    doc.saveString indent options =
      String.ofList (spelled ((doc.tree doc.root).markupPieces (.ofOptions indent options) 0)) := by
  obtain ⟨held, hsave, hheld⟩ :=
    save_eq (e := .utf8) Sink.keeps_text String.toList_empty doc indent options hmark hdeclaration
  rw [saveString, hsave, ← hheld, String.ofList_toList]

/-- The bytes of a document are its text in the encoding. -/
theorem save_bytes (e : Encoding) (doc : Document) (indent : String)
    (options : FormatOptions) (hmark : options.contains .writeBom = false)
    (hdeclaration : options.contains .noDeclaration = true) :
    doc.save Sink.bytes [] indent options e =
      (.ok (), e.forOutput.encode (doc.saveString indent options)) := by
  obtain ⟨held, hsave, hheld⟩ :=
    save_eq (Sink.keeps_bytes _ []) (List.append_nil []).symm doc indent options hmark hdeclaration
  rw [hsave, hheld, saveString_eq doc indent options hmark hdeclaration, Encoding.encode,
    String.toList_ofList, List.nil_append]

/-- The text that is written of a document, without the mark. -/
def writtenText (doc : Document) (indent : String) (options : FormatOptions) (e : Encoding) :
    String :=
  String.ofList ((doc.pieces indent options e.forOutput).flatMap Piece.chars)

/-- The bytes that are written in front of the text. -/
def writtenMark (options : FormatOptions) (e : Encoding) : Bytes :=
  if options.contains .writeBom && e.forOutput != .latin1 then e.forOutput.byteOrderMark else []

/-- The declaration that is added to a document, none if it has one. -/
def addedDeclaration (doc : Document) (options : FormatOptions) (e : Encoding) : List String :=
  if !options.contains .noDeclaration && !doc.hasDeclaration then
    declarationPieces options e.forOutput
  else
    []

theorem toList_writtenText (doc : Document) (indent : String) (options : FormatOptions)
    (e : Encoding) :
    (doc.writtenText indent options e).toList = spelled (doc.addedDeclaration options e) ++
      spelled ((doc.tree doc.root).markupPieces (.ofOptions indent options) 0) := by
  have hraw : ∀ front, [Piece.raw front].flatMap Piece.chars = [] := fun _ => rfl
  rw [writtenText, String.toList_ofList, ← spelled_append, ← Piece.flatMap_chars_text, pieces]
  simp only [addedDeclaration, List.flatMap_append]
  split
  · rw [hraw, List.nil_append]
  · rfl

/-- The bytes of a document are the mark and then its text in the encoding. -/
theorem save_bytes_eq (doc : Document) (indent : String) (options : FormatOptions)
    (e : Encoding) :
    doc.save Sink.bytes [] indent options e =
      (.ok (), writtenMark options e ++ e.forOutput.encode (doc.writtenText indent options e)) := by
  obtain ⟨held, hsave, hheld⟩ :=
    OutputBuffer.writeAll_text (Sink.keeps_bytes e.forOutput (writtenMark options e))
      (List.append_nil _).symm OutputBuffer.defaultCapacity
      (doc.addedDeclaration options e ++
        (doc.tree doc.root).markupPieces (.ofOptions indent options) 0)
  rw [spelled_append, ← toList_writtenText, ← Encoding.encode] at hheld
  rw [← hheld, ← hsave, save, pieces]
  unfold writtenMark
  split
  · rw [List.singleton_append, OutputBuffer.writeAll, List.foldl_cons,
      OutputBuffer.write_raw_new]
    rfl
  · rfl

end Document

end XmlTree
