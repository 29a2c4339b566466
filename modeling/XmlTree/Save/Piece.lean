/-
  Save/Piece.lean --- output in pieces, gathered into chunks.

  WHAT THIS FILE IS FOR.  Markup is written piece by piece.  An output buffer gathers
  the pieces as text and, each time it holds enough, encodes all of it and hands the
  bytes to a sink as one chunk.  So every chunk ends between two characters, and how
  output is cut into chunks depends on the pieces alone.

  FAILING SINKS.  The first failure of a sink is kept, and what is written after it
  is dropped without another attempt; it is reported at the end.
-/
import XmlTree.Encoding.Codec

set_option autoImplicit false

namespace XmlTree

/-! ## Sinks -/

/-- Why a sink refuses a chunk. -/
inductive SinkFailure where
  /-- the bytes are none that the sink can hold -/
  | invalidData
  | other
  deriving DecidableEq, Repr, Inhabited

/-- What takes chunks of bytes, with a state of type `σ`. -/
structure Sink (σ : Type) where
  write : σ → Bytes → Except SinkFailure σ

namespace Sink

/-- Keeps all bytes. -/
def bytes : Sink Bytes where
  write held chunk := .ok (held ++ chunk)

/-- Keeps text, and refuses bytes that are not UTF-8. -/
def text : Sink String where
  write held chunk :=
    match Encoding.utf8.decodeStrict chunk with
    | .ok s => .ok (held ++ s)
    | .error _ => .error .invalidData

/-- Keeps each chunk by itself, the last one first, up to a number of them. -/
def chunks (limit : Option Nat) : Sink (List Bytes) where
  write held chunk :=
    if limit.any (· ≤ held.length) then .error .other else .ok (chunk :: held)

end Sink

/-! ## The output buffer -/

/-- A piece of output. -/
inductive Piece where
  | text (s : String)
  /-- bytes that are not encoded, a chunk of their own -/
  | raw (bytes : Bytes)
  deriving DecidableEq, Repr, Inhabited

/-- Output that is being gathered for a sink in the state `sink`. -/
structure OutputBuffer (σ : Type) where
  sink : σ
  encoding : Encoding
  /-- number of bytes of UTF-8 at which the text is handed on -/
  capacity : Nat
  /-- text that is still to be handed on -/
  pending : String
  failure : Option SinkFailure

namespace OutputBuffer

variable {σ : Type}

/-- Capacity of a buffer when none is asked for. -/
def defaultCapacity : Nat := 8192

/-- A buffer without text; its capacity is at least one. -/
def new (sink : σ) (encoding : Encoding) (capacity : Nat) : OutputBuffer σ :=
  ⟨sink, encoding.forOutput, max capacity 1, "", none⟩

/-- Hands a chunk to the sink, unless it is empty or the sink has failed. -/
def emit (out : Sink σ) (b : OutputBuffer σ) (chunk : Bytes) : OutputBuffer σ :=
  if b.failure.isSome || chunk.isEmpty then b
  else
    match out.write b.sink chunk with
    | .ok sink => { b with sink }
    | .error failure => { b with failure := some failure }

/-- Hands on all text that is pending. -/
def drain (out : Sink σ) (b : OutputBuffer σ) : OutputBuffer σ :=
  if b.pending.isEmpty then b
  else { b with pending := "" }.emit out (b.encoding.encode b.pending)

/-- Writes one piece. -/
def write (out : Sink σ) (b : OutputBuffer σ) : Piece → OutputBuffer σ
  | .text s =>
    let b := { b with pending := b.pending ++ s }
    if b.capacity ≤ b.pending.utf8ByteSize then b.drain out else b
  | .raw bytes => (b.drain out).emit out bytes

/-- The final state of the sink, and its first failure. -/
def finish (out : Sink σ) (b : OutputBuffer σ) : Except SinkFailure Unit × σ :=
  let b := b.drain out
  (match b.failure with
    | some failure => .error failure
    | none => .ok (), b.sink)

/-- Writes pieces one after the other, and finishes. -/
def writeAll (out : Sink σ) (b : OutputBuffer σ) (pieces : List Piece) :
    Except SinkFailure Unit × σ :=
  (pieces.foldl (write out) b).finish out

end OutputBuffer

end XmlTree
