/-
  Store/Slots.lean --- records kept under handles that go stale.

  WHAT THIS FILE IS FOR.  A record is reached through a handle: the index of a
  slot, and the generation that the slot had when the record came in.  Removing a
  record advances the generation, so the old handle finds nothing even when the
  slot is used again.  Vacant slots are used again before new ones are made, the one
  vacated last first.

  GENERATIONS ARE WORDS.  A generation is a 32-bit word that is never zero; after
  its last value it starts again at one.

  SLOTS ARE NOT LIMITED.  The index of a slot is a word, too, and a store with as many
  slots as there are words refuses a record that needs another one, changing nothing.
  Space for so many records is taken to run out before, so here it never refuses.
-/
set_option autoImplicit false

namespace XmlTree

/-- The key of a record: a slot and the generation of its occupant. -/
structure Handle where
  index : Nat
  generation : UInt32
  deriving DecidableEq, Repr, Inhabited, Hashable

namespace Handle

/-- A nonzero number that identifies the handle: the generation in the high half,
the index in the low half, and one added. -/
def hashValue (h : Handle) : UInt64 :=
  let n := (h.generation.toUInt64 <<< 32 ||| (UInt32.ofNat h.index).toUInt64) + 1
  if n = 0 then 1 else n

end Handle

/-- A slot: the generation of its present or next occupant, and the occupant. -/
structure Slot (α : Type) where
  generation : UInt32
  occupant : Option α
  deriving Repr, Inhabited

/-- The generation that follows `g`. -/
def nextGeneration (g : UInt32) : UInt32 := if g + 1 = 0 then 1 else g + 1

/-- Records in slots.  `vacant` lists the slots without a record, the next one to
be used first; `live` is the number of records, kept along. -/
structure SlotStore (α : Type) where
  slots : Array (Slot α)
  vacant : List Nat
  live : Nat
  deriving Repr, Inhabited

namespace SlotStore

variable {α : Type}

/-- The store without slots. -/
def empty : SlotStore α := ⟨#[], [], 0⟩

/-- The record under a handle. -/
def get? (s : SlotStore α) (h : Handle) : Option α :=
  match s.slots[h.index]? with
  | some slot => if slot.generation = h.generation then slot.occupant else none
  | none => none

/-- Whether a handle leads to a record. -/
def contains (s : SlotStore α) (h : Handle) : Bool := (s.get? h).isSome

/-- The generation of the record in the slot `index`. -/
def generationAt? (s : SlotStore α) (index : Nat) : Option UInt32 :=
  match s.slots[index]? with
  | some ⟨g, some _⟩ => some g
  | _ => none

/-- Number of slots, occupied or vacant. -/
def slotCount (s : SlotStore α) : Nat := s.slots.size

/-- Number of records. -/
def size (s : SlotStore α) : Nat := s.live

/-- Puts a record into the slot that was vacated last, or into a new one. -/
def insert (s : SlotStore α) (record : α) : Handle × SlotStore α :=
  match s.vacant with
  | index :: rest =>
    let generation := (s.slots[index]?.map Slot.generation).getD 1
    (⟨index, generation⟩,
      ⟨s.slots.modify index fun slot => { slot with occupant := some record }, rest,
        s.live + 1⟩)
  | [] => (⟨s.slots.size, 1⟩, ⟨s.slots.push ⟨1, some record⟩, [], s.live + 1⟩)

/-- Changes the record under a handle, if there is one. -/
def modify (s : SlotStore α) (h : Handle) (f : α → α) : SlotStore α :=
  { s with
    slots := s.slots.modify h.index fun slot =>
      if slot.generation = h.generation then { slot with occupant := slot.occupant.map f }
      else slot }

/-- Takes out the record under a handle; the handle is stale from then on. -/
def remove? (s : SlotStore α) (h : Handle) : Option (α × SlotStore α) :=
  match s.get? h with
  | some record =>
    some (record,
      ⟨s.slots.modify h.index fun slot => ⟨nextGeneration slot.generation, none⟩,
        h.index :: s.vacant, s.live - 1⟩)
  | none => none

/-- Takes out every record.  The slots stay, and with them their generations, so
all handles given so far are stale; they are used again from the first one on. -/
def clear (s : SlotStore α) : SlotStore α :=
  ⟨s.slots.map fun slot =>
      if slot.occupant.isSome then ⟨nextGeneration slot.generation, none⟩ else slot,
    List.range s.slots.size, 0⟩

end SlotStore

end XmlTree
