import ChunkStrings.Layout.Compact
import ChunkStrings.Layout.Legacy
import ChunkStrings.Layout.Modern

/-!
# Layouts of string records

Three layouts have been in use, and the generation tag of a chunk says which of them its
records have. `Layout` is the choice among them: every operation on records takes a layout and
the format of the chunk.

Reading a record is a transaction, so the cursor moves over a record whole or not at all. A
record is read through a scratch buffer that may hold anything before; `Layout.decodeEach`
reads records at any positions through one such buffer.
-/

namespace ChunkStrings

/-- The layouts of string records. -/
inductive Layout where
  /-- A length and a byte after the string. -/
  | legacy
  /-- A size byte and a keystream. -/
  | compact
  /-- A length and nothing after the string. -/
  | modern
  deriving DecidableEq, Repr, Inhabited

namespace Layout

/-! ### Generations -/

/-- The layout that belongs to a generation tag. -/
def ofTag (tag : UInt8) : Except Fault Layout :=
  if 0x50 ≤ tag ∧ tag ≤ 0x52 then .ok legacy
  else if tag = 0x53 then .ok compact
  else if tag = 0x54 then .ok modern
  else .error (.unknownGeneration tag)

/-- The first generation that has this layout. -/
def tag : Layout → UInt8
  | legacy => 0x50
  | compact => 0x53
  | modern => 0x54

/-- The name of the layout, as it is printed. -/
def name : Layout → String
  | legacy => "legacy"
  | compact => "compact"
  | modern => "modern"

/-- All layouts, from the oldest to the newest. -/
def all : List Layout := [legacy, compact, modern]

theorem ofTag_tag (layout : Layout) : ofTag layout.tag = .ok layout := by
  cases layout <;> rfl

/-- The layout that the records of a chunk have. -/
def ofFormat (format : ChunkFormat) : Except Fault Layout :=
  ofTag format.generation

/-! ### Reading -/

/-- Reads a record, or leaves the cursor where it is. -/
def decode (layout : Layout) (format : ChunkFormat) : Decode StringConst :=
  Decode.transaction <|
    match layout with
    | legacy => Legacy.decode format
    | compact => Compact.decode format
    | modern => Modern.decode format

/-- Reads a record, and logs the string if the format is traced. -/
def decodeTraced (layout : Layout) (format : ChunkFormat) : Decode StringConst := do
  let constant ← layout.decode format
  if format.traced then
    if let some content := constant.content? then
      Decode.note (.parsed content)
  return constant

/-- Reads the record at a position of the data. -/
def decodeAt (layout : Layout) (format : ChunkFormat) (pos : Nat) : Decode StringConst := do
  Decode.seek pos
  layout.decodeTraced format

/-- Reads the records at these positions one after another through one scratch buffer, each for
itself: a record that cannot be read does not keep the later ones from being read. -/
def decodeEach (layout : Layout) (format : ChunkFormat) (positions : List Nat) :
    StateM DecodeState (List (Except Fault StringConst)) :=
  positions.mapM fun pos => (layout.decodeAt format pos).attempt

/-- The records at these positions, in this order; if any cannot be read, the fault of the first
of them. -/
def decodeAll (layout : Layout) (format : ChunkFormat) (data : ByteArray)
    (positions : List Nat) : Except Fault (List StringConst) × Array LogLine :=
  let (results, state) := layout.decodeEach format positions (.start data)
  (results.mapM id, state.log)

/-! ### Writing -/

/-- Writes a record. -/
def write (layout : Layout) (format : ChunkFormat) (constant : StringConst) : Emit Unit :=
  match layout with
  | legacy => Legacy.write format constant
  | compact => Compact.write format constant
  | modern => Modern.write format constant

/-- The number of bytes that a record takes. -/
def encodedSize (layout : Layout) (format : ChunkFormat) (constant : StringConst) : Nat :=
  match layout with
  | legacy => Legacy.encodedSize format constant
  | compact => Compact.encodedSize format constant
  | modern => Modern.encodedSize format constant

/-- The bytes of a record. -/
def encode (layout : Layout) (format : ChunkFormat) (constant : StringConst) :
    Except Fault ByteArray :=
  match (layout.write format constant).run (.growing .empty) with
  | .ok _ sink => .ok sink.written
  | .error fault _ => .error fault

end Layout

end ChunkStrings
